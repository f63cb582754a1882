import Mathlib.Logic.Function.Basic
import DartSync.Library.Runs

/-!
# Calls under a lock

Threads call the functions of an object that they share. A call takes the lock of the object, runs
its body and gives the lock back. A body reaches the object in single accesses, and between two
accesses of one thread the others may do anything that the lock lets them do. Whatever they do, the
calls return what they return one after another, in the order in which they give the lock back
(`linearized_of_run`), and a call that has begun can always be completed (`completes_of_run`).
-/

namespace Critical

open Runs

variable {τ C A σ ε α β : Type}

/-! ## Code -/

/-- Code that reaches what is shared in single accesses, each of which may fail. -/
inductive Code (σ ε α : Type) : Type 1
  | ret (a : α)
  | access {β : Type} (f : σ → Except ε (β × σ)) (k : β → Code σ ε α)

namespace Code

/-- The code when nothing comes between its accesses. -/
def run : Code σ ε α → σ → Except ε (α × σ)
  | ret a, s => .ok (a, s)
  | access f k, s => do
    let (b, s) ← f s
    (k b).run s

def bind : Code σ ε α → (α → Code σ ε β) → Code σ ε β
  | ret a, g => g a
  | access f k, g => access f fun b => (k b).bind g

instance : Monad (Code σ ε) where
  pure := ret
  bind := bind

/-- An access that only reads. -/
def read (f : σ → Except ε α) : Code σ ε α := access (fun s => (f s).map (·, s)) ret

/-- An access that only writes. -/
def write (f : σ → Except ε σ) : Code σ ε Unit := access (fun s => (f s).map ((), ·)) ret

@[simp] theorem run_pure (a : α) (s : σ) : (pure a : Code σ ε α).run s = .ok (a, s) := rfl

@[simp] theorem run_bind (x : Code σ ε α) (g : α → Code σ ε β) (s : σ) :
    (x >>= g).run s = x.run s >>= fun r => (g r.1).run r.2 := by
  show (bind x g).run s = _
  induction x generalizing s with
  | ret a => rfl
  | access f k ih =>
    show (f s >>= fun r => (bind (k r.1) g).run r.2) = (f s >>= fun r => (k r.1).run r.2) >>= _
    cases f s with
    | error e => rfl
    | ok r => exact ih r.1 r.2

@[simp] theorem ok_then (r : α) (g : α → Except ε β) : (Except.ok r >>= g) = g r := rfl

@[simp] theorem ok_map (r : α) (g : α → β) : (Except.ok r : Except ε α).map g = .ok (g r) := rfl

@[simp] theorem run_read (f : σ → Except ε α) (s : σ) : (read f).run s = (f s).map (·, s) := by
  unfold read
  rw [run]
  cases f s <;> rfl

@[simp] theorem run_write (f : σ → Except ε σ) (s : σ) : (write f).run s = (f s).map ((), ·) := by
  unfold write
  rw [run]
  cases f s <;> rfl

end Code

/-! ## Threads -/

/-- A thread that makes no call, waits for the lock, has the lock and the rest of a body to run, or
has given back the lock. -/
inductive Thread (C A σ ε : Type) : Type 1
  | idle
  | waiting (c : C)
  | inside (c : C) (code : Code σ ε A)
  | leaving (c : C) (a : A)

/-- A shared object, its lock and the threads; no step depends on the last three fields, which note
the calls in the order in which they are made, give the lock back, and return. -/
structure Monitor (τ C A σ ε : Type) where
  shared : σ
  holder : Option τ
  threads : τ → Thread C A σ ε
  called : List (τ × C)
  done : List (τ × C × A)
  returned : List (τ × C × A)

/-- Nobody has made a call. -/
def Monitor.start (s : σ) : Monitor τ C A σ ε := ⟨s, none, fun _ => .idle, [], [], []⟩

inductive Event (τ C : Type)
  | call (i : τ) (c : C)
  | lock (i : τ)
  | access (i : τ)
  | unlock (i : τ)
  | ret (i : τ)

/-- Why a step does not happen: the thread is not there or the lock is held, or an access fails. -/
inductive Stop (ε : Type)
  | disabled
  | failed (e : ε)

variable [DecidableEq τ]

/-- The thread `i` is now at `t`. -/
def Monitor.setThread (m : Monitor τ C A σ ε) (i : τ) (t : Thread C A σ ε) : Monitor τ C A σ ε :=
  { m with threads := Function.update m.threads i t }

def step (body : C → Code σ ε A) (m : Monitor τ C A σ ε) :
    Event τ C → Except (Stop ε) (Monitor τ C A σ ε)
  | .call i c =>
    match m.threads i with
    | .idle => .ok { m.setThread i (.waiting c) with called := m.called ++ [(i, c)] }
    | _ => .error .disabled
  | .lock i =>
    match m.threads i, m.holder with
    | .waiting c, none => .ok { m.setThread i (.inside c (body c)) with holder := some i }
    | _, _ => .error .disabled
  | .access i =>
    match m.threads i with
    | .inside c (.access f k) =>
      match f m.shared with
      | .ok (b, s) => .ok { m.setThread i (.inside c (k b)) with shared := s }
      | .error e => .error (.failed e)
    | _ => .error .disabled
  | .unlock i =>
    match m.threads i with
    | .inside c (.ret a) =>
      .ok { m.setThread i (.leaving c a) with holder := none, done := m.done ++ [(i, c, a)] }
    | _ => .error .disabled
  | .ret i =>
    match m.threads i with
    | .leaving c a => .ok { m.setThread i .idle with returned := m.returned ++ [(i, c, a)] }
    | _ => .error .disabled

variable {body : C → Code σ ε A} {m m' : Monitor τ C A σ ε} {e : Event τ C} {i j : τ} {c : C}
  {a : A} {s s' : σ}

/-- What a step does. -/
inductive Steps (body : C → Code σ ε A) (m : Monitor τ C A σ ε) :
    Event τ C → Monitor τ C A σ ε → Prop
  | call {i : τ} {c : C} (h : m.threads i = .idle) :
      Steps body m (.call i c) { m.setThread i (.waiting c) with called := m.called ++ [(i, c)] }
  | lock {i : τ} {c : C} (h : m.threads i = .waiting c) (hfree : m.holder = none) :
      Steps body m (.lock i) { m.setThread i (.inside c (body c)) with holder := some i }
  | access {i : τ} {c : C} {β : Type} {f : σ → Except ε (β × σ)} {k : β → Code σ ε A} {b : β} {s : σ}
      (h : m.threads i = .inside c (.access f k)) (hf : f m.shared = .ok (b, s)) :
      Steps body m (.access i) { m.setThread i (.inside c (k b)) with shared := s }
  | unlock {i : τ} {c : C} {a : A} (h : m.threads i = .inside c (.ret a)) :
      Steps body m (.unlock i)
        { m.setThread i (.leaving c a) with holder := none, done := m.done ++ [(i, c, a)] }
  | ret {i : τ} {c : C} {a : A} (h : m.threads i = .leaving c a) :
      Steps body m (.ret i) { m.setThread i .idle with returned := m.returned ++ [(i, c, a)] }

theorem steps_of_step (h : step body m e = .ok m') : Steps body m e m' := by
  cases e with
  | call i c =>
    rw [step] at h
    split at h
    · rename_i hi
      cases h
      exact .call hi
    · cases h
  | lock i =>
    rw [step] at h
    split at h
    · rename_i hi hfree
      cases h
      exact .lock hi hfree
    · cases h
  | access i =>
    rw [step] at h
    split at h
    · rename_i hi
      split at h
      · rename_i hf
        cases h
        exact .access hi hf
      · cases h
    · cases h
  | unlock i =>
    rw [step] at h
    split at h
    · rename_i hi
      cases h
      exact .unlock hi
    · cases h
  | ret i =>
    rw [step] at h
    split at h
    · rename_i hi
      cases h
      exact .ret hi
    · cases h

theorem step_of_steps (h : Steps body m e m') : step body m e = .ok m' := by
  cases h with
  | call h => simp only [step, h]
  | lock h hfree => simp only [step, h, hfree]
  | access h hf => simp only [step, h, hf]
  | unlock h => simp only [step, h]
  | ret h => simp only [step, h]

theorem setThread_threads (m : Monitor τ C A σ ε) (i j : τ) (t : Thread C A σ ε) :
    (m.setThread i t).threads j = if j = i then t else m.threads j :=
  Function.update_apply m.threads i t j

@[simp] theorem setThread_holder (m : Monitor τ C A σ ε) (i : τ) (t : Thread C A σ ε) :
    (m.setThread i t).holder = m.holder := rfl

@[simp] theorem setThread_called (m : Monitor τ C A σ ε) (i : τ) (t : Thread C A σ ε) :
    (m.setThread i t).called = m.called := rfl

@[simp] theorem setThread_done (m : Monitor τ C A σ ε) (i : τ) (t : Thread C A σ ε) :
    (m.setThread i t).done = m.done := rfl

@[simp] theorem setThread_returned (m : Monitor τ C A σ ε) (i : τ) (t : Thread C A σ ε) :
    (m.setThread i t).returned = m.returned := rfl

/-! ## One call after another -/

/-- The calls of a log, made one after another from `s` on, return what the log says and end in
`t`. -/
def Sequential (body : C → Code σ ε A) (s : σ) : List (τ × C × A) → σ → Prop
  | [], t => t = s
  | (_, c, a) :: log, t => ∃ u, (body c).run s = .ok (a, u) ∧ Sequential body u log t

omit [DecidableEq τ] in
theorem sequential_concat {log : List (τ × C × A)} : Sequential body s (log ++ [(i, c, a)]) s' ↔
    ∃ u, Sequential body s log u ∧ (body c).run u = .ok (a, s') := by
  induction log generalizing s with
  | nil =>
    constructor
    · rintro ⟨u, hrun, rfl⟩
      exact ⟨s, rfl, hrun⟩
    · rintro ⟨u, rfl, hrun⟩
      exact ⟨s', hrun, rfl⟩
  | cons x log ih =>
    constructor
    · rintro ⟨u, hrun, hlog⟩
      obtain ⟨v, hv, hlast⟩ := ih.mp hlog
      exact ⟨v, ⟨u, hrun, hv⟩, hlast⟩
    · rintro ⟨v, ⟨u, hrun, hv⟩, hlast⟩
      exact ⟨u, hrun, ih.mpr ⟨v, hv, hlast⟩⟩

/-- What a log says of one thread. -/
def ofThread (i : τ) (log : List (τ × β)) : List β :=
  (log.filter fun x => x.1 = i).map Prod.snd

theorem ofThread_concat (i j : τ) (log : List (τ × β)) (b : β) :
    ofThread j (log ++ [(i, b)]) = ofThread j log ++ if j = i then [b] else [] := by
  unfold ofThread
  rw [List.filter_append, List.map_append]
  by_cases hij : j = i
  · rw [if_pos hij, List.filter_cons_of_pos (by simpa using hij.symm)]
    rfl
  · rw [if_neg hij, List.filter_cons_of_neg (by simpa using Ne.symm hij)]
    rfl

theorem mem_ofThread {log : List (τ × β)} {b : β} : b ∈ ofThread i log ↔ (i, b) ∈ log := by
  unfold ofThread
  constructor
  · intro h
    obtain ⟨⟨j, b'⟩, hx, rfl⟩ := List.mem_map.mp h
    obtain ⟨hx, hj⟩ := List.mem_filter.mp hx
    have hj : j = i := of_decide_eq_true hj
    exact hj ▸ hx
  · intro h
    exact List.mem_map.mpr ⟨(i, b), List.mem_filter.mpr ⟨h, decide_eq_true rfl⟩, rfl⟩

/-- What is noted of one thread only can be read in the log of that thread. -/
theorem filterMap_ofThread {γ : Type} {log : List (τ × β)} (f : β → Option γ)
    (h : ∀ j b, (j, b) ∈ log → f b ≠ none → j = i) :
    (ofThread i log).filterMap f = log.filterMap fun x => f x.2 := by
  induction log with
  | nil => rfl
  | cons x log ih =>
    obtain ⟨j, b⟩ := x
    have ih := ih fun k b' hb => h k b' (List.mem_cons_of_mem _ hb)
    unfold ofThread at ih ⊢
    by_cases hj : j = i
    · rw [List.filter_cons_of_pos (by simpa using hj), List.map_cons, List.filterMap_cons,
        List.filterMap_cons, ih]
    · have hnone : f b = none := by
        by_contra hne
        exact hj (h j b List.mem_cons_self hne)
      rw [List.filter_cons_of_neg (by simpa using hj), ih, List.filterMap_cons, hnone]

/-- The call of a thread that has not given back the lock. -/
def Thread.pending : Thread C A σ ε → List C
  | .waiting c => [c]
  | .inside c _ => [c]
  | _ => []

/-- The call of a thread that has given back the lock and not returned. -/
def Thread.unreturned : Thread C A σ ε → List (C × A)
  | .leaving c a => [(c, a)]
  | _ => []

/-- **Linearization.** Only the holder of the lock is in a body. The calls that have given back the
lock have returned what they return one after another, and while the lock is free the object is
what they leave. A thread's calls give back the lock in the order in which it makes them, and
return in that order. -/
structure Monitor.Linearized (body : C → Code σ ε A) (start : σ) (m : Monitor τ C A σ ε) : Prop where
  exclusive : ∀ i, (∃ c code, m.threads i = .inside c code) ↔ m.holder = some i
  sequential : ∃ s, Sequential body start m.done s ∧ (m.holder = none → m.shared = s)
  called_eq : ∀ i, ofThread i m.called =
    (ofThread i m.done).map Prod.fst ++ (m.threads i).pending
  done_eq : ∀ i, ofThread i m.done = ofThread i m.returned ++ (m.threads i).unreturned

/-- The rest of a body does to the object what the whole body does to what the log leaves. -/
structure Monitor.Inv (body : C → Code σ ε A) (start : σ) (m : Monitor τ C A σ ε) : Prop
    extends m.Linearized body start where
  inside : ∀ i c code, m.threads i = .inside c code →
    ∃ s, Sequential body start m.done s ∧ code.run m.shared = (body c).run s

theorem inv_start (body : C → Code σ ε A) (s : σ) :
    (Monitor.start s : Monitor τ C A σ ε).Inv body s where
  exclusive i := by
    constructor
    · rintro ⟨c, code, h⟩
      cases h
    · intro h
      cases h
  sequential := ⟨s, rfl, fun _ => rfl⟩
  called_eq _ := rfl
  done_eq _ := rfl
  inside i c code h := by cases h

theorem exclusive_steps
    (h : ∀ i, (∃ c code, m.threads i = .inside c code) ↔ m.holder = some i)
    (hstep : Steps body m e m') (j : τ) :
    (∃ c code, m'.threads j = .inside c code) ↔ m'.holder = some j := by
  have hj := h j
  cases hstep with
  | @call i c hi =>
    by_cases hij : j = i
    · subst hij
      simpa [setThread_threads, hi] using hj
    · simpa [setThread_threads, hij] using hj
  | @lock i c hi hfree =>
    by_cases hij : j = i
    · simp [setThread_threads, hij]
    · simpa [setThread_threads, hij, Ne.symm hij, hfree] using hj
  | @access i c β f k b s hi hf =>
    by_cases hij : j = i
    · subst hij
      simpa [setThread_threads, hi] using hj
    · simpa [setThread_threads, hij] using hj
  | @unlock i c a hi =>
    have hholder := (h i).mp ⟨c, _, hi⟩
    by_cases hij : j = i
    · simp [setThread_threads, hij]
    · simpa [setThread_threads, hij, Ne.symm hij, hholder] using hj
  | @ret i c a hi =>
    by_cases hij : j = i
    · subst hij
      simpa [setThread_threads, hi] using hj
    · simpa [setThread_threads, hij] using hj

theorem called_steps
    (h : ∀ i, ofThread i m.called = (ofThread i m.done).map Prod.fst ++ (m.threads i).pending)
    (hstep : Steps body m e m') (j : τ) :
    ofThread j m'.called = (ofThread j m'.done).map Prod.fst ++ (m'.threads j).pending := by
  have hj := h j
  cases hstep with
  | @call i c hi | @lock i c hi hfree | @access i c β f k b s hi hf | @unlock i c a hi
  | @ret i c a hi =>
    by_cases hij : j = i
    · subst hij
      simpa [setThread_threads, ofThread_concat, hi, Thread.pending] using hj
    · simpa [setThread_threads, ofThread_concat, hij] using hj

theorem done_steps
    (h : ∀ i, ofThread i m.done = ofThread i m.returned ++ (m.threads i).unreturned)
    (hstep : Steps body m e m') (j : τ) :
    ofThread j m'.done = ofThread j m'.returned ++ (m'.threads j).unreturned := by
  have hj := h j
  cases hstep with
  | @call i c hi | @lock i c hi hfree | @access i c β f k b s hi hf | @unlock i c a hi
  | @ret i c a hi =>
    by_cases hij : j = i
    · subst hij
      simpa [setThread_threads, ofThread_concat, hi, Thread.unreturned] using hj
    · simpa [setThread_threads, ofThread_concat, hij] using hj

/-- What one step preserves. -/
theorem inv_steps {start : σ} (h : m.Inv body start) (hstep : Steps body m e m') :
    m'.Inv body start where
  exclusive := exclusive_steps h.exclusive hstep
  called_eq := called_steps h.called_eq hstep
  done_eq := done_steps h.done_eq hstep
  sequential := by
    cases hstep with
    | call | ret => exact h.sequential
    | lock hi hfree =>
      obtain ⟨s, hs, -⟩ := h.sequential
      exact ⟨s, hs, fun hnone => by cases hnone⟩
    | @access i c β f k b s hi hf =>
      obtain ⟨u, hu, -⟩ := h.sequential
      have hholder := (h.exclusive i).mp ⟨c, _, hi⟩
      refine ⟨u, hu, fun hfree => ?_⟩
      exact Option.some_ne_none i (hholder.symm.trans hfree) |>.elim
    | @unlock i c a hi =>
      obtain ⟨u, hu, hrun⟩ := h.inside i c _ hi
      exact ⟨m.shared, sequential_concat.mpr ⟨u, hu, hrun.symm⟩, fun _ => rfl⟩
  inside j c' code hin := by
    -- a thread other than the one that steps has not moved
    cases hstep with
    | @call i c hi | @ret i c a hi =>
      have hin : (m.setThread i _).threads j = _ := hin
      rw [setThread_threads] at hin
      split_ifs at hin
      exact h.inside j c' code hin
    | @lock i c hi hfree =>
      have hin : (m.setThread i _).threads j = _ := hin
      rw [setThread_threads] at hin
      split_ifs at hin with hj
      · cases hin
        obtain ⟨s, hs, hshared⟩ := h.sequential
        exact ⟨s, hs, congrArg (body c').run (hshared hfree)⟩
      · exact h.inside j c' code hin
    | @access i c β f k b s hi hf =>
      have hin : (m.setThread i _).threads j = _ := hin
      rw [setThread_threads] at hin
      split_ifs at hin with hj
      · cases hin
        obtain ⟨u, hu, hrun⟩ := h.inside i c' _ hi
        refine ⟨u, hu, ?_⟩
        rw [← hrun, Code.run, hf]
        rfl
      · have hholder := (h.exclusive i).mp ⟨c, _, hi⟩
        have := (h.exclusive j).mp ⟨c', code, hin⟩
        exact absurd (Option.some.inj (this.symm.trans hholder)) hj
    | @unlock i c a hi =>
      have hin : (m.setThread i _).threads j = _ := hin
      rw [setThread_threads] at hin
      split_ifs at hin with hj
      have hholder := (h.exclusive i).mp ⟨c, _, hi⟩
      have := (h.exclusive j).mp ⟨c', code, hin⟩
      exact absurd (Option.some.inj (this.symm.trans hholder)) hj

/-! ## Runs -/

variable {start : σ} {es : List (Event τ C)}

theorem inv_of_run
    (h : Run (step body) (fun _ _ => True) (Monitor.start start) es m) : m.Inv body start :=
  h.invariant (fun _ _ _ hs _ hst => inv_steps hs (steps_of_step hst)) (inv_start body start)

/-- A call that has given back the lock stays before all that get it later. -/
theorem done_prefix {guard : Monitor τ C A σ ε → Event τ C → Prop} {es : List (Event τ C)}
    (h : Run (step body) guard m es m') : m.done <+: m'.done :=
  h.invariant (I := fun t => m.done <+: t.done)
    (fun _ _ _ hs _ hst => by
      cases steps_of_step hst with
      | call | lock | access | ret => exact hs
      | unlock => exact hs.trans (List.prefix_append _ _))
    (List.prefix_refl _)

theorem linearized_of_run
    (h : Run (step body) (fun _ _ => True) (Monitor.start start) es m) : m.Linearized body start :=
  (inv_of_run h).toLinearized

/-- No call fails, whatever calls have been made before. -/
def NeverFails (τ : Type) (body : C → Code σ ε A) (start : σ) : Prop :=
  ∀ (log : List (τ × C × A)) s c, Sequential body start log s → ∃ r, (body c).run s = .ok r

/-- Where no call fails, no access fails. -/
theorem Monitor.Inv.access_ok (h : m.Inv body start) (hsafe : NeverFails τ body start)
    {f : σ → Except ε (β × σ)} {k : β → Code σ ε A} (hi : m.threads i = .inside c (.access f k)) :
    ∃ b s, f m.shared = .ok (b, s) := by
  obtain ⟨u, hu, hrun⟩ := h.inside i c _ hi
  obtain ⟨r, hr⟩ := hsafe m.done u c hu
  rw [hr, Code.run] at hrun
  cases hf : f m.shared with
  | error e => rw [hf] at hrun; cases hrun
  | ok x => exact ⟨x.1, x.2, rfl⟩

theorem Monitor.Inv.not_failed (h : m.Inv body start) (hsafe : NeverFails τ body start)
    (e : Event τ C) (x : ε) : step body m e ≠ .error (.failed x) := by
  intro hstep
  cases e with
  | call i c | lock i | unlock i | ret i =>
    rw [step] at hstep
    split at hstep <;> cases hstep
  | access i =>
    rw [step] at hstep
    split at hstep
    · rename_i hi
      obtain ⟨b, s, hf⟩ := h.access_ok hsafe hi
      rw [hf] at hstep
      cases hstep
    · cases hstep

/-! ## Completing the calls -/

/-- No event but a new call. -/
def NoCall (_ : Monitor τ C A σ ε) (e : Event τ C) : Prop := ∀ i c, e ≠ .call i c

/-- Steps without a new call after which the thread `i` is back, the lock is free and the other
threads are where they were. -/
structure Completes (body : C → Code σ ε A) (m : Monitor τ C A σ ε) (i : τ)
    (m' : Monitor τ C A σ ε) : Prop where
  run : ∃ es, Run (step body) NoCall m es m'
  holder_eq : m'.holder = none
  idle : m'.threads i = .idle
  others : ∀ j, j ≠ i → m'.threads j = m.threads j
  called_eq : m'.called = m.called

/-- One step of the thread `i`, and then the rest. -/
theorem Completes.cons {m'' : Monitor τ C A σ ε} (hcall : ∀ i c, e ≠ .call i c)
    (hstep : step body m e = .ok m') (hothers : ∀ j, j ≠ i → m'.threads j = m.threads j)
    (hcalled : m'.called = m.called) (h : Completes body m' i m'') : Completes body m i m'' where
  run := by
    obtain ⟨es, hes⟩ := h.run
    exact ⟨e :: es, .cons hcall hstep hes⟩
  holder_eq := h.holder_eq
  idle := h.idle
  others j hj := (h.others j hj).trans (hothers j hj)
  called_eq := h.called_eq.trans hcalled

theorem Completes.inv (h : Completes body m i m') (hinv : m.Inv body start) : m'.Inv body start := by
  obtain ⟨es, hes⟩ := h.run
  exact hes.invariant (fun _ _ _ hs _ hst => inv_steps hs (steps_of_step hst)) hinv

/-- A thread that makes no call still makes none, and `i` is back. -/
theorem Completes.idle_of (h : Completes body m i m') (hj : j ≠ i → m.threads j = .idle) :
    m'.threads j = .idle := by
  by_cases hji : j = i
  · rw [hji]
    exact h.idle
  · rw [h.others j hji]
    exact hj hji

theorem setThread_others (m : Monitor τ C A σ ε) (t : Thread C A σ ε) (j : τ) (hj : j ≠ i) :
    (m.setThread i t).threads j = m.threads j := by
  rw [setThread_threads, if_neg hj]

/-- A thread that has given back the lock returns. -/
theorem completes_leaving (hfree : m.holder = none) (hi : m.threads i = .leaving c a) :
    ∃ m', Completes body m i m' := by
  have hstep : step body m (.ret i) = .ok _ := step_of_steps (.ret hi)
  refine ⟨_, ⟨[.ret i], .cons (by simp [NoCall]) hstep (.nil _)⟩, hfree, ?_, fun j hj => ?_, rfl⟩
  · exact (setThread_threads m i i _).trans (if_pos rfl)
  · exact setThread_others m _ j hj

/-- The holder of the lock runs the rest of its body, gives the lock back and returns. The induction
is on the rest of the body. -/
theorem completes_inside (hsafe : NeverFails τ body start) (h : m.Inv body start)
    {code : Code σ ε A} (hi : m.threads i = .inside c code) : ∃ m', Completes body m i m' := by
  induction code generalizing m with
  | ret a =>
    have hsteps : Steps body m (.unlock i) _ := .unlock hi
    obtain ⟨m', hm'⟩ := completes_leaving (m := { m.setThread i (.leaving c a) with
      holder := none, done := m.done ++ [(i, c, a)] }) rfl
      ((setThread_threads m i i _).trans (if_pos rfl))
    exact ⟨m', hm'.cons (by simp) (step_of_steps hsteps) (setThread_others m _) rfl⟩
  | access f k ih =>
    obtain ⟨b, s, hf⟩ := h.access_ok hsafe hi
    have hsteps : Steps body m (.access i) _ := .access hi hf
    obtain ⟨m', hm'⟩ := ih b (inv_steps h hsteps) ((setThread_threads m i i _).trans (if_pos rfl))
    exact ⟨m', hm'.cons (by simp) (step_of_steps hsteps) (setThread_others m _) rfl⟩

/-- While the lock is free, any thread can complete its call. -/
theorem completes_of_free (hsafe : NeverFails τ body start) (h : m.Inv body start)
    (hfree : m.holder = none) (i : τ) : ∃ m', Completes body m i m' := by
  cases hi : m.threads i with
  | idle => exact ⟨m, ⟨[], .nil m⟩, hfree, hi, fun _ _ => rfl, rfl⟩
  | waiting c =>
    have hsteps : Steps body m (.lock i) _ := .lock hi hfree
    obtain ⟨m', hm'⟩ := completes_inside hsafe (inv_steps h hsteps)
      ((setThread_threads m i i _).trans (if_pos rfl))
    exact ⟨m', hm'.cons (by simp) (step_of_steps hsteps) (setThread_others m _) rfl⟩
  | inside c code => exact completes_inside hsafe h hi
  | leaving c a => exact completes_leaving hfree hi

theorem completes_all (hsafe : NeverFails τ body start) (h : m.Inv body start)
    (hfree : m.holder = none) (ts : List τ) (hidle : ∀ i, i ∉ ts → m.threads i = .idle) :
    ∃ es m', Run (step body) NoCall m es m' ∧ (∀ i, m'.threads i = .idle) ∧
      m'.called = m.called := by
  induction ts generalizing m with
  | nil => exact ⟨[], m, .nil m, fun i => hidle i List.not_mem_nil, rfl⟩
  | cons t ts ih =>
    obtain ⟨m1, h1⟩ := completes_of_free hsafe h hfree t
    obtain ⟨es1, hes1⟩ := h1.run
    have hidle1 : ∀ i, i ∉ ts → m1.threads i = .idle := fun i hi =>
      h1.idle_of fun hit => hidle i (by simp [hit, hi])
    obtain ⟨es2, m2, hes2, hall, hcalled⟩ := ih (h1.inv h) h1.holder_eq hidle1
    exact ⟨es1 ++ es2, m2, hes1.append hes2, hall, hcalled.trans h1.called_eq⟩

/-- Only finitely many threads have made a call. -/
theorem exists_support (h : Run (step body) (fun _ _ => True) (Monitor.start start) es m) :
    ∃ ts : List τ, ∀ i, i ∉ ts → m.threads i = .idle := by
  refine h.invariant (I := fun m => ∃ ts : List τ, ∀ i, i ∉ ts → m.threads i = .idle) ?_
    ⟨[], fun _ _ => rfl⟩
  rintro m e m' ⟨ts, hts⟩ - hst
  cases steps_of_step hst with
  | @call t | @lock t | @access t | @unlock t | @ret t =>
    refine ⟨t :: ts, fun i hi => ?_⟩
    obtain ⟨hit, hi⟩ := not_or.mp (mt List.mem_cons.mpr hi)
    exact (setThread_others m _ i hit).trans (hts i hi)

/-- **No deadlock.** In whatever state the threads are, the calls that they have made can all be
completed. -/
theorem completes_of_run (hsafe : NeverFails τ body start)
    (h : Run (step body) (fun _ _ => True) (Monitor.start start) es m) :
    ∃ es' m', Run (step body) NoCall m es' m' ∧ (∀ i, m'.threads i = .idle) ∧
      m'.called = m.called := by
  have hinv := inv_of_run h
  obtain ⟨ts, hts⟩ := exists_support h
  cases hholder : m.holder with
  | none => exact completes_all hsafe hinv hholder ts hts
  | some i =>
    obtain ⟨c, code, hi⟩ := (hinv.exclusive i).mpr hholder
    obtain ⟨m1, h1⟩ := completes_inside hsafe hinv hi
    obtain ⟨es1, hes1⟩ := h1.run
    have hidle : ∀ j, j ∉ ts → m1.threads j = .idle := fun j hj => h1.idle_of fun _ => hts j hj
    obtain ⟨es2, m2, hes2, hall, hcalled⟩ := completes_all hsafe (h1.inv hinv) h1.holder_eq ts hidle
    exact ⟨es1 ++ es2, m2, hes1.append hes2, hall, hcalled.trans h1.called_eq⟩

end Critical
