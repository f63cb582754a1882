import Mathlib.Data.List.Perm.Subperm
import Mathlib.Data.List.Nodup
import Mathlib.Logic.Function.Basic
import Mathlib.Tactic.Common

/-!
# Heaps

Memory in cells that are allocated and freed one at a time. An allocation takes any free cell, also
one that was in use before: the cell that is hinted at, if it is free.
-/

namespace Memory

variable {ν : Type*}

/-- A pointer to a cell; `none` is NULL. -/
abbrev Pointer := Option ℕ

/-- The cells in use and their contents; from `limit` on every cell is free. -/
structure Heap (ν : Type*) where
  cell : ℕ → Option ν
  limit : ℕ
  cell_of_limit_le : ∀ p, limit ≤ p → cell p = none

namespace Heap

variable {heap : Heap ν} {p q : ℕ} {v : ν}

def empty : Heap ν where
  cell _ := none
  limit := 0
  cell_of_limit_le _ _ := rfl

/-- The contents `v` at `p`. -/
def put (heap : Heap ν) (p : ℕ) (v : ν) : Heap ν where
  cell := Function.update heap.cell p (some v)
  limit := max heap.limit (p + 1)
  cell_of_limit_le q hq := by
    rw [Function.update_of_ne (by omega)]
    exact heap.cell_of_limit_le q (by omega)

/-- `p` made free. -/
def free (heap : Heap ν) (p : ℕ) : Heap ν where
  cell := Function.update heap.cell p none
  limit := heap.limit
  cell_of_limit_le q hq := by
    by_cases hqp : q = p
    · rw [hqp, Function.update_self]
    · rw [Function.update_of_ne hqp]
      exact heap.cell_of_limit_le q hq

/-- The cell that an allocation takes. -/
def fresh (heap : Heap ν) (hint : ℕ) : ℕ := if (heap.cell hint).isNone then hint else heap.limit

theorem cell_fresh (heap : Heap ν) (hint : ℕ) : heap.cell (heap.fresh hint) = none := by
  unfold fresh
  split_ifs with h
  · exact Option.isNone_iff_eq_none.mp h
  · exact heap.cell_of_limit_le _ (Nat.le_refl _)

theorem cell_put : (heap.put p v).cell p = some v := Function.update_self ..

theorem cell_put_of_ne (h : q ≠ p) : (heap.put p v).cell q = heap.cell q :=
  Function.update_of_ne h ..

theorem cell_free_of_ne (h : q ≠ p) : (heap.free p).cell q = heap.cell q :=
  Function.update_of_ne h ..

theorem lt_limit (h : heap.cell p = some v) : p < heap.limit := by
  by_contra hle
  rw [heap.cell_of_limit_le p (by omega)] at h
  cases h

/-- Distinct cells in use are no more than there are cells. -/
theorem length_le_limit {ps : List ℕ} (hnodup : ps.Nodup) (h : ∀ p ∈ ps, ∃ v, heap.cell p = some v) :
    ps.length ≤ heap.limit := by
  have hsub : ps ⊆ List.range heap.limit := fun p hp => by
    obtain ⟨v, hv⟩ := h p hp
    exact List.mem_range.mpr (lt_limit hv)
  calc ps.length ≤ (List.range heap.limit).length := (hnodup.subperm hsub).length_le
    _ = heap.limit := List.length_range

end Heap

end Memory
