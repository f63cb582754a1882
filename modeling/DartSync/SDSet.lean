import DartSync.Library.KeyedList
import DartSync.Queue.Memory
import Mathlib.Algebra.Ring.Nat

/-!
# Sparse-dense sets

`SDSet.c` in memory. `dense` holds the keys in the order in which they were set, `sparse` where in
`dense` a key is; a key is set if the two point to each other, so the cells need not be initialised.
On a set that stands for a list of keys with values (`Represents`) the functions do what is to be done
to the list, as long as no key is set a second time and no key is asked for beyond the blocks.
-/

namespace DartSync

open KeyedList

/-- `INITITIAL_SIZE` -/
def inititialSize : ℕ := 10

/-- `_SDSet` in memory. -/
structure SDSet (α : Type) where
  dense : List UInt32
  sparse : List UInt32
  values : List α
  size : ℕ
  space : ℕ

/-- What `malloc` and `realloc` find in the blocks of a set. -/
structure SDSetMalloc (α : Type) where
  dense : Malloc UInt32
  sparse : Malloc UInt32
  values : Malloc α

/-- `realloc`, to `n` cells. -/
def reallocCells {α : Type} (fresh : Malloc α) (elements : List α) (n : ℕ) : List α :=
  elements.take n ++ (mallocCells fresh n).drop elements.length

namespace SDSet

variable {α : Type}

/-- `sdset_new` -/
def sdsetNew (fresh : SDSetMalloc α) : SDSet α where
  dense := mallocCells fresh.dense inititialSize
  sparse := mallocCells fresh.sparse inititialSize
  values := mallocCells fresh.values inititialSize
  size := 0
  space := inititialSize

/-- `sdset_clear` -/
def sdsetClear (set : SDSet α) : SDSet α := { set with size := 0 }

/-- `sdset_is_set` -/
def sdsetIsSet (set : SDSet α) (key : ℕ) : Except Abort Bool := do
  let index ← readCell set.sparse key
  if index.toNat < set.size then
    let element ← readCell set.dense index.toNat
    return element.toNat = key
  else return false

/-- The loop of `sdset_set`. Where `space * 2` is no `int` any more it becomes negative and then 0, and
the loop does not end. -/
def growLoop (fresh : SDSetMalloc α) (key : ℕ) : ℕ → SDSet α → Except Abort (SDSet α)
  | 0, _ => .error .diverges
  | fuel + 1, set =>
    if set.space ≤ key then
      if 2 ^ 31 ≤ set.space * 2 then .error .diverges
      else growLoop fresh key fuel { set with
        space := set.space * 2
        dense := reallocCells fresh.dense set.dense (set.space * 2)
        sparse := reallocCells fresh.sparse set.sparse (set.space * 2)
        values := reallocCells fresh.values set.values (set.space * 2) }
    else .ok set

/-- `sdset_set` -/
def sdsetSet (fresh : SDSetMalloc α) (set : SDSet α) (key : ℕ) (value : α) :
    Except Abort (SDSet α) := do
  let set ← growLoop fresh key (key + 1) set
  let dense ← writeCell set.dense set.size (.ofNat key)
  let sparse ← writeCell set.sparse key (.ofNat set.size)
  let values ← writeCell set.values key value
  return { set with dense := dense, sparse := sparse, values := values, size := set.size + 1 }

/-- `sdset_get` -/
def sdsetGet (set : SDSet α) (key : ℕ) : Except Abort (Option α) := do
  if ← set.sdsetIsSet key then
    let value ← readCell set.values key
    return some value
  else return none

/-- `sdset_length` -/
def sdsetLength (set : SDSet α) : ℕ := set.size

/-- `sdset_get_index` -/
def sdsetGetIndex (set : SDSet α) (index : ℕ) : Except Abort (Option α) :=
  if set.size ≤ index then .ok none
  else do
    let key ← readCell set.dense index
    let value ← readCell set.values key.toNat
    return some value

/-! ## Growing -/

/-- The sizes that a set can have. -/
def IsSpace (n : ℕ) : Prop := ∃ k ≤ 27, n = inititialSize * 2 ^ k

theorem IsSpace.double {n : ℕ} (h : IsSpace n) (hlt : n * 2 < 2 ^ 31) : IsSpace (n * 2) := by
  obtain ⟨k, hk, rfl⟩ := h
  refine ⟨k + 1, ?_, by rw [pow_succ, Nat.mul_assoc]⟩
  by_contra hnot
  obtain rfl : k = 27 := by omega
  exact absurd hlt (by decide)

/-- Doubling stops at the largest of them. -/
theorem IsSpace.le {n : ℕ} (h : IsSpace n) : n ≤ inititialSize * 2 ^ 27 := by
  obtain ⟨k, hk, rfl⟩ := h
  exact Nat.mul_le_mul_left _ (Nat.pow_le_pow_right (by decide) hk)

theorem IsSpace.pos {n : ℕ} (h : IsSpace n) : 0 < n := by
  obtain ⟨k, -, rfl⟩ := h
  exact Nat.mul_pos (by decide) (Nat.pow_pos (by decide))

/-- Below the largest of them there is still one more. -/
theorem IsSpace.double_lt {n : ℕ} (h : IsSpace n) (hlt : n < inititialSize * 2 ^ 27) : n * 2 < 2 ^ 31 := by
  obtain ⟨k, hk, rfl⟩ := h
  have hk : k ≤ 26 := by
    by_contra hnot
    obtain rfl : k = 27 := by omega
    exact absurd hlt (lt_irrefl _)
  calc inititialSize * 2 ^ k * 2 ≤ inititialSize * 2 ^ 26 * 2 :=
        Nat.mul_le_mul_right _ (Nat.mul_le_mul_left _ (Nat.pow_le_pow_right (by decide) hk))
    _ < 2 ^ 31 := by decide

theorem isBlock_reallocCells {elements : List α} {memory : ℕ → α} {space n : ℕ} (fresh : Malloc α)
    (h : IsBlock elements memory space) (hn : space ≤ n) :
    IsBlock (reallocCells fresh elements n) (fun i => if i < space then memory i else fresh n i) n := by
  have hlen := h.length
  apply List.ext_getElem?
  intro i
  unfold reallocCells
  rw [List.take_of_length_le (by omega), hlen, List.getElem?_map]
  by_cases hi : i < space
  · rw [List.getElem?_append_left (by omega), h.getElem? hi, List.getElem?_range (by omega)]
    simp [hi]
  · rw [List.getElem?_append_right (by omega), List.getElem?_drop, hlen, Nat.add_sub_of_le (by omega)]
    by_cases hin : i < n
    · rw [(isBlock_mallocCells fresh n).getElem? hin, List.getElem?_range hin]
      simp [hi]
    · rw [List.getElem?_eq_none (by rw [(isBlock_mallocCells fresh n).length]; omega),
        List.getElem?_eq_none (by rw [List.length_range]; omega)]
      rfl

/-! ## What a set holds -/

/-- The set holds the keys with their values, in the order in which they were set. -/
structure Represents (set : SDSet α) (m : List (ℕ × α)) : Prop where
  space : IsSpace set.space
  size_eq : set.size = m.length
  nodup : (m.map Prod.fst).Nodup
  key_lt : ∀ x ∈ m, x.1 < set.space
  dense : ∃ memory, IsBlock set.dense memory set.space ∧
    ∀ i (h : i < m.length), memory i = .ofNat m[i].1
  sparse : ∃ memory, IsBlock set.sparse memory set.space ∧
    ∀ i (h : i < m.length), memory m[i].1 = .ofNat i
  values : ∃ memory, IsBlock set.values memory set.space ∧ ∀ x ∈ m, memory x.1 = x.2

variable {set set' : SDSet α} {m : List (ℕ × α)} {key fuel : ℕ} {value : α} {fresh : SDSetMalloc α}

theorem represents_sdsetNew (fresh : SDSetMalloc α) : (sdsetNew fresh).Represents [] where
  space := ⟨0, Nat.zero_le _, rfl⟩
  size_eq := rfl
  nodup := List.nodup_nil
  key_lt _ hx := absurd hx List.not_mem_nil
  dense := ⟨_, isBlock_mallocCells fresh.dense _, fun _ h => absurd h (Nat.not_lt_zero _)⟩
  sparse := ⟨_, isBlock_mallocCells fresh.sparse _, fun _ h => absurd h (Nat.not_lt_zero _)⟩
  values := ⟨_, isBlock_mallocCells fresh.values _, fun _ hx => absurd hx List.not_mem_nil⟩

theorem Represents.sdsetClear (h : set.Represents m) : set.sdsetClear.Represents [] where
  space := h.space
  size_eq := rfl
  nodup := List.nodup_nil
  key_lt _ hx := absurd hx List.not_mem_nil
  dense := h.dense.imp fun _ hd => ⟨hd.1, fun _ hi => absurd hi (Nat.not_lt_zero _)⟩
  sparse := h.sparse.imp fun _ hs => ⟨hs.1, fun _ hi => absurd hi (Nat.not_lt_zero _)⟩
  values := h.values.imp fun _ hv => ⟨hv.1, fun _ hx => absurd hx List.not_mem_nil⟩

/-- There are no more keys than cells. -/
theorem length_le_of_nodup {keys : List ℕ} {n : ℕ} (hnd : keys.Nodup) (hlt : ∀ k ∈ keys, k < n) :
    keys.length ≤ n := by
  have hsub : keys ⊆ List.range n := fun k hk => List.mem_range.mpr (hlt k hk)
  exact (List.subperm_of_subset hnd hsub).length_le.trans_eq List.length_range

theorem Represents.length_le (h : set.Represents m) : m.length ≤ set.space := by
  rw [← List.length_map (f := Prod.fst)]
  refine length_le_of_nodup h.nodup fun k hk => ?_
  obtain ⟨x, hx, rfl⟩ := List.mem_map.mp hk
  exact h.key_lt x hx

theorem Represents.space_le (h : set.Represents m) : set.space ≤ 1342177280 := h.space.le

theorem toNat_ofNat {n : ℕ} (hn : n ≤ 1342177280) : (UInt32.ofNat n).toNat = n :=
  UInt32.toNat_ofNat_of_lt' (hn.trans_lt (by decide))

/-! ## The queries -/

/-- `sdset_is_set` -/
theorem Represents.sdsetIsSet (h : set.Represents m) (hkey : key < set.space) :
    set.sdsetIsSet key = .ok (decide (key ∈ m.map Prod.fst)) := by
  obtain ⟨dense, hdense, hdense'⟩ := h.dense
  obtain ⟨sparse, hsparse, hsparse'⟩ := h.sparse
  have hspace := h.space_le
  have hlen := h.length_le
  unfold SDSet.sdsetIsSet
  refine bind_eq_ok.mpr ⟨sparse key, hsparse.readCell hkey, ?_⟩
  by_cases hlt : (sparse key).toNat < set.size
  · rw [if_pos hlt]
    rw [h.size_eq] at hlt
    refine bind_eq_ok.mpr ⟨dense (sparse key).toNat, hdense.readCell (hlt.trans_le hlen), ?_⟩
    rw [hdense' _ hlt]
    have hsmall := (h.key_lt _ (List.getElem_mem hlt)).le.trans hspace
    refine congrArg Except.ok (decide_eq_decide.mpr ?_)
    rw [toNat_ofNat hsmall, List.mem_map]
    constructor
    · exact fun heq => ⟨_, List.getElem_mem hlt, heq⟩
    · rintro ⟨x, hx, rfl⟩
      obtain ⟨j, hj, rfl⟩ := List.getElem_of_mem hx
      have hindex : (sparse m[j].1).toNat = j := by
        rw [hsparse' j hj, toNat_ofNat (by omega)]
      simp only [hindex]
  · rw [if_neg hlt]
    refine congrArg Except.ok (decide_eq_false fun hmem => hlt ?_).symm
    obtain ⟨x, hx, rfl⟩ := List.mem_map.mp hmem
    obtain ⟨j, hj, rfl⟩ := List.getElem_of_mem hx
    rw [hsparse' j hj, toNat_ofNat (by omega), h.size_eq]
    exact hj

/-- Beyond the blocks. -/
theorem Represents.sdsetIsSet_error (h : set.Represents m) (hkey : set.space ≤ key) :
    set.sdsetIsSet key = .error .outOfBounds := by
  obtain ⟨sparse, hsparse, -⟩ := h.sparse
  have hread : readCell set.sparse key = .error .outOfBounds := by
    unfold readCell
    rw [if_neg (by omega), Int.toNat_natCast, List.getElem?_eq_none (by rw [hsparse.length]; exact hkey)]
  unfold SDSet.sdsetIsSet
  rw [hread]
  rfl

/-- `sdset_get` -/
theorem Represents.sdsetGet (h : set.Represents m) (hkey : key < set.space) :
    set.sdsetGet key = .ok ((findKey Prod.fst key m).map Prod.snd) := by
  obtain ⟨values, hvalues, hvalues'⟩ := h.values
  unfold SDSet.sdsetGet
  refine bind_eq_ok.mpr ⟨_, h.sdsetIsSet hkey, ?_⟩
  cases hfind : findKey Prod.fst key m with
  | none =>
    rw [if_neg (by simpa using findKey_eq_none.mp hfind)]
    rfl
  | some x =>
    have hmem := mem_of_findKey hfind
    have hx := key_of_findKey hfind
    rw [if_pos (by simpa using mem_map_key_of_findKey hfind)]
    refine bind_eq_ok.mpr ⟨values key, hvalues.readCell hkey, ?_⟩
    rw [← hx, hvalues' x hmem]
    rfl

theorem Represents.sdsetGet_error (h : set.Represents m) (hkey : set.space ≤ key) :
    set.sdsetGet key = .error .outOfBounds := by
  unfold SDSet.sdsetGet
  rw [h.sdsetIsSet_error hkey]
  rfl

/-- `sdset_get_index` -/
theorem Represents.sdsetGetIndex (h : set.Represents m) (index : ℕ) :
    set.sdsetGetIndex index = .ok (m[index]?.map Prod.snd) := by
  obtain ⟨dense, hdense, hdense'⟩ := h.dense
  obtain ⟨values, hvalues, hvalues'⟩ := h.values
  unfold SDSet.sdsetGetIndex
  rw [h.size_eq]
  by_cases hlt : index < m.length
  · have hmem := List.getElem_mem hlt
    have hkey := h.key_lt _ hmem
    rw [if_neg (not_le.mpr hlt), List.getElem?_eq_getElem hlt]
    refine bind_eq_ok.mpr ⟨_, hdense.readCell (hlt.trans_le h.length_le), ?_⟩
    rw [hdense' index hlt, toNat_ofNat (hkey.le.trans h.space_le)]
    refine bind_eq_ok.mpr ⟨_, hvalues.readCell hkey, ?_⟩
    rw [hvalues' _ hmem]
    rfl
  · rw [if_pos (not_lt.mp hlt), List.getElem?_eq_none (not_lt.mp hlt)]
    rfl

/-! ## Setting a key -/

/-- A turn of the loop keeps what the set holds. -/
theorem Represents.grow (h : set.Represents m) (fresh : SDSetMalloc α) (hlt : set.space * 2 < 2 ^ 31) :
    Represents { set with
      space := set.space * 2
      dense := reallocCells fresh.dense set.dense (set.space * 2)
      sparse := reallocCells fresh.sparse set.sparse (set.space * 2)
      values := reallocCells fresh.values set.values (set.space * 2) } m := by
  obtain ⟨dense, hdense, hdense'⟩ := h.dense
  obtain ⟨sparse, hsparse, hsparse'⟩ := h.sparse
  obtain ⟨values, hvalues, hvalues'⟩ := h.values
  have hle : set.space ≤ set.space * 2 := Nat.le_mul_of_pos_right _ (by decide)
  have hlen := h.length_le
  refine ⟨h.space.double hlt, h.size_eq, h.nodup, fun x hx => (h.key_lt x hx).trans_le hle,
    ⟨_, isBlock_reallocCells fresh.dense hdense hle, fun i hi => ?_⟩,
    ⟨_, isBlock_reallocCells fresh.sparse hsparse hle, fun i hi => ?_⟩,
    ⟨_, isBlock_reallocCells fresh.values hvalues hle, fun x hx => ?_⟩⟩
  · exact (if_pos (hi.trans_le hlen)).trans (hdense' i hi)
  · exact (if_pos (h.key_lt _ (List.getElem_mem hi))).trans (hsparse' i hi)
  · exact (if_pos (h.key_lt x hx)).trans (hvalues' x hx)

theorem Represents.growLoop (h : set.Represents m) (hok : growLoop fresh key fuel set = .ok set') :
    set'.Represents m ∧ key < set'.space := by
  induction fuel generalizing set with
  | zero => cases hok
  | succ fuel ih =>
    rw [SDSet.growLoop] at hok
    split_ifs at hok with hle hbig
    · exact ih (h.grow fresh (not_le.mp hbig)) hok
    · cases hok
      exact ⟨h, not_le.mp hle⟩

/-- The loop ends for every key below the largest size. -/
theorem Represents.growLoop_isOk (h : set.Represents m) (fresh : SDSetMalloc α)
    (hkey : key < inititialSize * 2 ^ 27) (hfuel : key + 1 - set.space < fuel) :
    ∃ set', SDSet.growLoop fresh key fuel set = .ok set' := by
  induction fuel generalizing set with
  | zero => exact absurd hfuel (Nat.not_lt_zero _)
  | succ fuel ih =>
    rw [SDSet.growLoop]
    by_cases hle : set.space ≤ key
    · have hlt := h.space.double_lt (hle.trans_lt hkey)
      have hpos := h.space.pos
      rw [if_pos hle, if_neg (not_le.mpr hlt)]
      refine ih (h.grow fresh hlt) ?_
      show key + 1 - set.space * 2 < fuel
      omega
    · exact ⟨set, if_neg hle⟩

theorem Represents.nodup_concat (h : set.Represents m) (hnew : key ∉ m.map Prod.fst) (value : α) :
    ((m ++ [(key, value)]).map Prod.fst).Nodup := by
  rw [List.map_append]
  exact List.nodup_append_comm.mp (List.nodup_cons.mpr ⟨hnew, h.nodup⟩)

theorem Represents.concat_lt (h : set.Represents m) (hlt : key < set.space) (value : α) :
    ∀ x ∈ m ++ [(key, value)], x.1 < set.space := by
  intro x hx
  rcases List.mem_append.mp hx with hx | hx
  · exact h.key_lt x hx
  · rw [List.mem_singleton.mp hx]
    exact hlt

/-- Where a key is not set there is a cell of `dense` left. -/
theorem Represents.length_lt (h : set.Represents m) (hlt : key < set.space)
    (hnew : key ∉ m.map Prod.fst) : m.length < set.space := by
  have hle : (key :: m.map Prod.fst).length ≤ set.space := by
    refine length_le_of_nodup (List.nodup_cons.mpr ⟨hnew, h.nodup⟩) fun k hk => ?_
    rcases List.mem_cons.mp hk with rfl | hk
    · exact hlt
    · obtain ⟨x, hx, rfl⟩ := List.mem_map.mp hk
      exact h.key_lt x hx
  rwa [List.length_cons, List.length_map] at hle

/-- What is asked of the places of a list with one element more. -/
theorem forall_getElem_concat {p : ℕ → ℕ × α → Prop} {c : ℕ × α} (hm : ∀ i (h : i < m.length), p i m[i])
    (hc : p m.length c) : ∀ i (h : i < (m ++ [c]).length), p i (m ++ [c])[i] := by
  intro i hi
  by_cases hlast : i < m.length
  · rw [List.getElem_append_left hlast]
    exact hm i hlast
  · rw [List.length_append, List.length_singleton] at hi
    obtain rfl : i = m.length := by omega
    rw [List.getElem_concat_length rfl]
    exact hc

/-- `sdset_set` of a key that is not set. -/
theorem Represents.sdsetSet (h : set.Represents m) (fresh : SDSetMalloc α) (value : α)
    (hkey : key < inititialSize * 2 ^ 27) (hnew : key ∉ m.map Prod.fst) :
    ∃ set', SDSet.sdsetSet fresh set key value = .ok set' ∧ set'.Represents (m ++ [(key, value)]) := by
  have hpos := h.space.pos
  obtain ⟨set1, hgrow⟩ := h.growLoop_isOk fresh hkey (show key + 1 - set.space < key + 1 by omega)
  obtain ⟨h1, hlt⟩ := h.growLoop hgrow
  obtain ⟨dense, hdense, hdense'⟩ := h1.dense
  obtain ⟨sparse, hsparse, hsparse'⟩ := h1.sparse
  obtain ⟨values, hvalues, hvalues'⟩ := h1.values
  have hne : ∀ x ∈ m, x.1 ≠ key := fun x hx heq => hnew (List.mem_map.mpr ⟨x, hx, heq⟩)
  obtain ⟨dense', hwrite1, hdense1⟩ := hdense.writeCell (x := .ofNat key) (h1.length_lt hlt hnew)
  obtain ⟨sparse', hwrite2, hsparse1⟩ := hsparse.writeCell (x := .ofNat m.length) hlt
  obtain ⟨values', hwrite3, hvalues1⟩ := hvalues.writeCell (x := value) hlt
  refine ⟨⟨dense', sparse', values', set1.size + 1, set1.space⟩, ?_, h1.space, ?_,
    h1.nodup_concat hnew value, h1.concat_lt hlt value, ⟨_, hdense1, ?_⟩, ⟨_, hsparse1, ?_⟩,
    ⟨_, hvalues1, fun x hx => ?_⟩⟩
  · rw [← h1.size_eq] at hwrite1 hwrite2
    exact bind_eq_ok.mpr ⟨set1, hgrow, bind_eq_ok.mpr ⟨dense', hwrite1,
      bind_eq_ok.mpr ⟨sparse', hwrite2, bind_eq_ok.mpr ⟨values', hwrite3, rfl⟩⟩⟩⟩
  · rw [h1.size_eq, List.length_append, List.length_singleton]
  · refine forall_getElem_concat (p := fun i x => Function.update dense m.length (.ofNat key) i = .ofNat x.1)
      (fun i hi => ?_) (Function.update_self ..)
    rw [Function.update_of_ne hi.ne, hdense' i hi]
  · refine forall_getElem_concat (p := fun i x => Function.update sparse key (.ofNat m.length) x.1 = .ofNat i)
      (fun i hi => ?_) (Function.update_self ..)
    rw [Function.update_of_ne (hne _ (List.getElem_mem hi)), hsparse' i hi]
  · rcases List.mem_append.mp hx with hx | hx
    · rw [Function.update_of_ne (hne x hx), hvalues' x hx]
    · rw [List.mem_singleton.mp hx, Function.update_self]

/-- A call that returns has counted one key more, and found room for it. -/
theorem Represents.of_sdsetSet (h : set.Represents m)
    (hok : SDSet.sdsetSet fresh set key value = .ok set') :
    set'.size = m.length + 1 ∧ key < inititialSize * 2 ^ 27 := by
  obtain ⟨set1, hgrow, hok⟩ := bind_eq_ok.mp hok
  obtain ⟨dense, -, hok⟩ := bind_eq_ok.mp hok
  obtain ⟨sparse, -, hok⟩ := bind_eq_ok.mp hok
  obtain ⟨values, -, hok⟩ := bind_eq_ok.mp hok
  cases hok
  obtain ⟨h1, hlt⟩ := h.growLoop hgrow
  exact ⟨congrArg (· + 1) h1.size_eq, hlt.trans_le h1.space.le⟩

end SDSet

end DartSync
