import Mathlib.Data.List.Basic
import Mathlib.Data.Nat.ModEq
import Mathlib.Tactic.Common

/-!
# Rings of cells

Memory read in a circle: cell `i` of the ring of `space` cells that starts at `tail` lies at
`(i + tail) % space`. The first `space` cells are distinct places (`cell_update`).
-/

namespace Ring

variable {α : Type*} {memory memory' : ℕ → α} {tail space i j n : ℕ} {x : α}

/-- Cell `i` of the ring. -/
def cell (memory : ℕ → α) (tail space i : ℕ) : α := memory ((i + tail) % space)

/-- The first `n` cells. -/
def cells (memory : ℕ → α) (tail space n : ℕ) : List α :=
  (List.range n).map (cell memory tail space)

/-- The first cells are at distinct places. -/
theorem index_inj (hi : i < space) (hj : j < space) (h : (i + tail) % space = (j + tail) % space) :
    i = j := by
  have hmod : i ≡ j [MOD space] := Nat.ModEq.add_right_cancel' tail h
  exact Nat.ModEq.eq_of_lt_of_lt hmod hi hj

/-- A write to a cell. -/
theorem cell_update (hi : i < space) (hj : j < space) :
    cell (Function.update memory ((i + tail) % space) x) tail space j =
      if j = i then x else cell memory tail space j := by
  unfold cell
  rw [Function.update_apply]
  by_cases h : j = i
  · simp [h]
  · rw [if_neg fun h' => h (index_inj hj hi h'), if_neg h]

/-- The ring that starts one cell later. -/
theorem cell_tail_succ : cell memory ((tail + 1) % space) space i = cell memory tail space (i + 1) := by
  unfold cell
  rw [Nat.add_mod_mod]
  congr 2
  omega

@[simp] theorem length_cells : (cells memory tail space n).length = n := by simp [cells]

theorem getElem?_cells : (cells memory tail space n)[i]? =
    if i < n then some (cell memory tail space i) else none := by
  unfold cells
  rw [List.getElem?_map]
  by_cases h : i < n <;> simp [h]

theorem cells_succ : cells memory tail space (n + 1) =
    cells memory tail space n ++ [cell memory tail space n] := by
  simp [cells, List.range_succ]

theorem cells_congr (h : ∀ i < n, cell memory tail space i = cell memory' tail space i) :
    cells memory tail space n = cells memory' tail space n :=
  List.map_congr_left fun i hi => h i (List.mem_range.mp hi)

end Ring
