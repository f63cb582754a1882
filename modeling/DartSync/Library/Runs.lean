import Mathlib.Tactic.Common

/-!
# Guarded runs of a partial step function

`step s e` handles the event `e` in the state `s` and may abort. A `Run` is a finite sequence of
events none of which aborts and each of which meets a guard in the state it is handled in: the
guard says which events the environment may produce, or which of them a result is about.
-/

namespace Runs

variable {σ ε α : Type*} {step : σ → ε → Except α σ} {guard guard' : σ → ε → Prop}

/-- `Run step guard s es t`: from `s` the events `es` lead to `t`. -/
inductive Run (step : σ → ε → Except α σ) (guard : σ → ε → Prop) : σ → List ε → σ → Prop
  | nil (s : σ) : Run step guard s [] s
  | cons {s t u : σ} {e : ε} {es : List ε} :
      guard s e → step s e = .ok t → Run step guard t es u → Run step guard s (e :: es) u

variable {s t u : σ} {e : ε} {es es' : List ε}

/-- A predicate that every guarded step preserves holds at the end of a run if it holds at the
start. -/
theorem Run.invariant {I : σ → Prop}
    (hstep : ∀ s e t, I s → guard s e → step s e = .ok t → I t)
    (h : Run step guard s es t) (hs : I s) : I t := by
  induction h with
  | nil => exact hs
  | cons hg hst _ ih => exact ih (hstep _ _ _ hs hg hst)

theorem Run.append (h : Run step guard s es t) (h' : Run step guard t es' u) :
    Run step guard s (es ++ es') u := by
  induction h with
  | nil => exact h'
  | cons hg hst _ ih => exact .cons hg hst (ih h')

theorem Run.mono (h : Run step guard s es t) (himp : ∀ s e, guard s e → guard' s e) :
    Run step guard' s es t := by
  induction h with
  | nil => exact .nil _
  | cons hg hst _ ih => exact .cons (himp _ _ hg) hst ih

/-- Runs the events as long as each passes the test and is handled. -/
def runIf (step : σ → ε → Except α σ) (test : σ → ε → Bool) : σ → List ε → Option σ
  | s, [] => some s
  | s, e :: es =>
    if test s e then
      match step s e with
      | .ok t => runIf step test t es
      | .error _ => none
    else none

/-- A run that has been carried out. -/
theorem run_of_runIf {test : σ → ε → Bool} (htest : ∀ s e, test s e = true → guard s e)
    (h : runIf step test s es = some t) : Run step guard s es t := by
  induction es generalizing s with
  | nil => cases h; exact .nil _
  | cons e es ih =>
    rw [runIf] at h
    split_ifs at h with hs
    cases hst : step s e with
    | error a => rw [hst] at h; cases h
    | ok u => rw [hst] at h; exact .cons (htest s e hs) hst (ih h)

end Runs
