import Mathlib.Data.List.Basic
import Mathlib.Tactic.Common

/-!
# Revisions that travel as differences

A writer has had one state after another and has sent the difference from each to the next. Whoever
has a state like one of them and applies the differences that follow it, in their order, gets through
states like those that the writer has had.
-/

namespace Revisions

variable {σ υ ε : Type*} {diff : σ → σ → υ} {apply : σ → υ → Except ε σ} {R : σ → σ → Prop}
  {P : σ → Prop} {base s v : σ} {vs vs' : List σ} {n m : ℕ}

/-- The state after the first `n` changes. -/
def revision (base : σ) (vs : List σ) (n : ℕ) : σ := (vs.take n).getLastD base

/-- The differences from each state to the next. -/
def diffs (diff : σ → σ → υ) : σ → List σ → List υ
  | _, [] => []
  | base, v :: vs => diff base v :: diffs diff v vs

theorem getLastD_append (vs vs' : List σ) (base : σ) :
    (vs ++ vs').getLastD base = vs'.getLastD (vs.getLastD base) := by
  induction vs generalizing base with
  | nil => rfl
  | cons v vs ih => simpa only [List.cons_append, List.getLastD_cons] using ih v

theorem revision_length (base : σ) (vs : List σ) : revision base vs vs.length = vs.getLastD base := by
  unfold revision
  rw [List.take_length]

/-- A change comes after the earlier ones. -/
theorem revision_append (hn : n ≤ vs.length) : revision base (vs ++ vs') n = revision base vs n := by
  unfold revision
  rw [List.take_append_of_le_length hn]

theorem revision_add (base : σ) (vs : List σ) (n m : ℕ) :
    revision base vs (n + m) = revision (revision base vs n) (vs.drop n) m := by
  unfold revision
  rw [List.take_add, getLastD_append]

theorem forall_revision (hbase : P base) (hvs : ∀ v ∈ vs, P v) (n : ℕ) : P (revision base vs n) := by
  unfold revision
  rw [List.getLastD_eq_getLast?]
  cases hlast : (vs.take n).getLast? with
  | none => exact hbase
  | some v => exact hvs v (List.mem_of_mem_take (List.mem_of_getLast? hlast))

@[simp] theorem length_diffs (base : σ) (vs : List σ) : (diffs diff base vs).length = vs.length := by
  induction vs generalizing base with
  | nil => rfl
  | cons v vs ih => exact congrArg (· + 1) (ih v)

theorem diffs_append (base : σ) (vs vs' : List σ) : diffs diff base (vs ++ vs') =
    diffs diff base vs ++ diffs diff (vs.getLastD base) vs' := by
  induction vs generalizing base with
  | nil => rfl
  | cons v vs ih => simp only [List.cons_append, diffs, ih, List.getLastD_cons]

theorem diffs_take (base : σ) (vs : List σ) (n : ℕ) :
    (diffs diff base vs).take n = diffs diff base (vs.take n) := by
  induction vs generalizing base n with
  | nil => simp [diffs]
  | cons v vs ih =>
    cases n with
    | zero => rfl
    | succ n => simp only [diffs, List.take_succ_cons, ih]

theorem diffs_drop (base : σ) (vs : List σ) (n : ℕ) :
    (diffs diff base vs).drop n = diffs diff (revision base vs n) (vs.drop n) := by
  conv_lhs => rw [← List.take_append_drop n vs, diffs_append]
  by_cases hn : n ≤ vs.length
  · exact List.drop_left' (by rw [length_diffs, List.length_take, Nat.min_eq_left hn])
  · rw [List.drop_of_length_le (by simp; omega), List.drop_of_length_le (by omega)]
    rfl

/-- What comes after the first `n` differences leads from the state there to the next one. -/
theorem eq_diff_of_drop {u : υ} {us : List υ} (h : (diffs diff base vs).drop n = u :: us) :
    u = diff (revision base vs n) (revision base vs (n + 1)) := by
  rw [diffs_drop] at h
  rw [revision_add]
  cases hvs : vs.drop n with
  | nil =>
    rw [hvs] at h
    cases h
  | cons v rest =>
    rw [hvs] at h
    exact (List.cons.inj h).1.symm

/-- On a state like the old one a difference leads to a state like the new one. -/
def Patches (diff : σ → σ → υ) (apply : σ → υ → Except ε σ) (R : σ → σ → Prop) (P : σ → Prop) : Prop :=
  ∀ s a b, R s a → P a → P b → ∃ t, apply s (diff a b) = .ok t ∧ R t b

/-- All differences, one after the other. -/
theorem Patches.replay (h : Patches diff apply R P) (hs : R s base) (hbase : P base)
    (hvs : ∀ v ∈ vs, P v) :
    ∃ t, (diffs diff base vs).foldlM apply s = .ok t ∧ R t (vs.getLastD base) := by
  induction vs generalizing s base with
  | nil => exact ⟨s, rfl, hs⟩
  | cons v vs ih =>
    obtain ⟨hv, hvs⟩ := List.forall_mem_cons.mp hvs
    obtain ⟨u, hu, hlike⟩ := h s base v hs hbase hv
    obtain ⟨t, ht, hlast⟩ := ih hlike hv hvs
    refine ⟨t, ?_, by rwa [List.getLastD_cons]⟩
    rw [diffs, List.foldlM_cons, hu]
    exact ht

/-- The differences that follow the revision `n`, as far as they have come. -/
theorem Patches.replay_from (h : Patches diff apply R P) (vs : List σ) (n m : ℕ)
    (hs : R s (revision base vs n)) (hbase : P base) (hvs : ∀ v ∈ vs, P v) :
    ∃ t, (((diffs diff base vs).drop n).take m).foldlM apply s = .ok t ∧
      R t (revision base vs (n + m)) := by
  rw [diffs_drop, diffs_take, revision_add]
  exact h.replay hs (forall_revision hbase hvs n) fun v hv =>
    hvs v (List.mem_of_mem_drop (List.mem_of_mem_take hv))

end Revisions
