import Mathlib.Data.List.Nodup
import Mathlib.Data.List.Perm.Basic
import Mathlib.Tactic.Common

/-!
# Lists searched by key

A list whose elements carry a key, read and changed at the first element with a given key.
`findKey`, `eraseKey` and `replaceKey` are a chained table's lookup, removal and in-place update;
when the keys are distinct they are those of a finite map.
-/

namespace KeyedList

variable {α κ : Type*} [DecidableEq κ] (key : α → κ)

/-- The first element with key `k`. -/
def findKey (k : κ) (l : List α) : Option α := l.find? fun x => key x = k

/-- `l` without its first element of key `k`. -/
def eraseKey (k : κ) (l : List α) : List α := l.eraseP fun x => key x = k

/-- `l` with its first element of key `k` replaced by `b`. -/
def replaceKey (k : κ) (b : α) : List α → List α
  | [] => []
  | x :: l => if key x = k then b :: l else x :: replaceKey k b l

variable {key} {k k' : κ} {a b x : α} {l l' : List α}

/-! ## Lookup -/

@[simp] theorem findKey_nil : findKey key k [] = none := rfl

theorem findKey_cons : findKey key k (a :: l) = if key a = k then some a else findKey key k l := by
  unfold findKey
  rw [List.find?_cons]
  by_cases h : key a = k <;> simp [h]

theorem key_of_findKey (h : findKey key k l = some x) : key x = k := by
  simpa using List.find?_some h

theorem mem_of_findKey (h : findKey key k l = some x) : x ∈ l := List.mem_of_find?_eq_some h

theorem findKey_eq_none : findKey key k l = none ↔ k ∉ l.map key := by
  simp [findKey]

theorem findKey_isSome : (findKey key k l).isSome ↔ k ∈ l.map key := by
  rw [← not_iff_not, Option.not_isSome_iff_eq_none, findKey_eq_none]

theorem exists_findKey (h : k ∈ l.map key) : ∃ x, findKey key k l = some x :=
  Option.isSome_iff_exists.mp (findKey_isSome.mpr h)

theorem mem_map_key_of_findKey (h : findKey key k l = some x) : k ∈ l.map key :=
  findKey_isSome.mp (by simp [h])

/-- With distinct keys every element is the one its key finds. -/
theorem findKey_of_mem (hl : (l.map key).Nodup) (hx : x ∈ l) : findKey key (key x) l = some x := by
  induction l with
  | nil => simp at hx
  | cons a l ih =>
    rw [List.map_cons, List.nodup_cons] at hl
    rw [findKey_cons]
    rcases List.mem_cons.mp hx with rfl | hx
    · rw [if_pos rfl]
    · have hne : key a ≠ key x := fun h => hl.1 (h ▸ List.mem_map_of_mem hx)
      rw [if_neg hne, ih hl.2 hx]

theorem findKey_eq_some (hl : (l.map key).Nodup) :
    findKey key k l = some x ↔ x ∈ l ∧ key x = k :=
  ⟨fun h => ⟨mem_of_findKey h, key_of_findKey h⟩, fun ⟨hx, hk⟩ => hk ▸ findKey_of_mem hl hx⟩

/-- With distinct keys the element that is found is the only one of its key. -/
theorem filter_key (hl : (l.map key).Nodup) (h : findKey key k l = some x) :
    l.filter (fun y => key y = k) = [x] := by
  induction l with
  | nil => cases h
  | cons a l ih =>
    rw [List.map_cons, List.nodup_cons] at hl
    rw [findKey_cons] at h
    split_ifs at h with ha
    · cases h
      rw [List.filter_cons_of_pos (by simpa using ha), List.filter_eq_nil_iff.mpr fun y hy => ?_]
      simp only [decide_eq_true_eq]
      exact fun hyk => hl.1 (List.mem_map.mpr ⟨y, hy, hyk.trans ha.symm⟩)
    · rw [List.filter_cons_of_neg (by simpa using ha), ih hl.2 h]

theorem findKey_map {g : α → α} (hg : ∀ x, key (g x) = key x) :
    findKey key k (l.map g) = (findKey key k l).map g := by
  unfold findKey
  rw [List.find?_map]
  congr 2
  funext x
  simp [hg]

theorem findKey_append :
    findKey key k (l ++ l') = (findKey key k l).or (findKey key k l') := List.find?_append

/-! ## Removal -/

@[simp] theorem eraseKey_nil : eraseKey key k [] = [] := rfl

theorem eraseKey_cons : eraseKey key k (a :: l) = if key a = k then l else a :: eraseKey key k l := by
  unfold eraseKey
  rw [List.eraseP_cons]
  by_cases h : key a = k <;> simp [h]

theorem mem_of_mem_eraseKey (h : x ∈ eraseKey key k l) : x ∈ l := List.mem_of_mem_eraseP h

theorem eraseKey_sublist : (eraseKey key k l).Sublist l := List.eraseP_sublist

theorem nodup_map_eraseKey (hl : (l.map key).Nodup) : ((eraseKey key k l).map key).Nodup :=
  hl.sublist (eraseKey_sublist.map key)

theorem findKey_eraseKey_of_ne (h : k' ≠ k) :
    findKey key k' (eraseKey key k l) = findKey key k' l := by
  induction l with
  | nil => rfl
  | cons a l ih =>
    rw [eraseKey_cons]
    split_ifs with ha
    · rw [findKey_cons, if_neg (fun h' => h (h'.symm.trans ha))]
    · rw [findKey_cons, findKey_cons, ih]

theorem findKey_eraseKey_self (hl : (l.map key).Nodup) :
    findKey key k (eraseKey key k l) = none := by
  induction l with
  | nil => rfl
  | cons a l ih =>
    rw [List.map_cons, List.nodup_cons] at hl
    rw [eraseKey_cons]
    split_ifs with ha
    · rw [findKey_eq_none, ← ha]
      exact hl.1
    · rw [findKey_cons, if_neg ha, ih hl.2]

theorem findKey_eraseKey (hl : (l.map key).Nodup) :
    findKey key k' (eraseKey key k l) = if k' = k then none else findKey key k' l := by
  split_ifs with h
  · rw [h, findKey_eraseKey_self hl]
  · exact findKey_eraseKey_of_ne h

theorem eraseKey_of_notMem (h : k ∉ l.map key) : eraseKey key k l = l :=
  List.eraseP_of_forall_not fun x hx hk => h (List.mem_map.mpr ⟨x, hx, by simpa using hk⟩)

theorem eraseKey_append_left (h : k ∉ l'.map key) :
    eraseKey key k (l ++ l') = eraseKey key k l ++ l' := by
  induction l with
  | nil => exact eraseKey_of_notMem h
  | cons a l ih =>
    rw [List.cons_append, eraseKey_cons, eraseKey_cons, ih]
    split_ifs <;> rfl

theorem eraseKey_append_right (h : k ∉ l.map key) :
    eraseKey key k (l ++ l') = l ++ eraseKey key k l' := by
  induction l with
  | nil => rfl
  | cons a l ih =>
    rw [List.map_cons, List.mem_cons, not_or] at h
    rw [List.cons_append, eraseKey_cons, if_neg (Ne.symm h.1), ih h.2, List.cons_append]

/-! ## Update in place -/

@[simp] theorem replaceKey_nil : replaceKey key k b [] = [] := rfl

theorem replaceKey_cons :
    replaceKey key k b (a :: l) = if key a = k then b :: l else a :: replaceKey key k b l := rfl

theorem replaceKey_of_notMem (h : k ∉ l.map key) : replaceKey key k b l = l := by
  induction l with
  | nil => rfl
  | cons a l ih =>
    rw [List.map_cons, List.mem_cons, not_or] at h
    rw [replaceKey_cons, if_neg (Ne.symm h.1), ih h.2]

theorem replaceKey_append_left (h : k ∉ l'.map key) :
    replaceKey key k b (l ++ l') = replaceKey key k b l ++ l' := by
  induction l with
  | nil => exact replaceKey_of_notMem h
  | cons a l ih =>
    rw [List.cons_append, replaceKey_cons, replaceKey_cons, ih]
    split_ifs <;> rfl

theorem replaceKey_append_right (h : k ∉ l.map key) :
    replaceKey key k b (l ++ l') = l ++ replaceKey key k b l' := by
  induction l with
  | nil => rfl
  | cons a l ih =>
    rw [List.map_cons, List.mem_cons, not_or] at h
    rw [List.cons_append, replaceKey_cons, if_neg (Ne.symm h.1), ih h.2, List.cons_append]

/-- The first element with a key, put in its own place. -/
theorem replaceKey_self (h : findKey key k l = some b) : replaceKey key k b l = l := by
  induction l with
  | nil => rfl
  | cons a l ih =>
    rw [findKey_cons] at h
    rw [replaceKey_cons]
    split_ifs at h ⊢ with ha
    · rw [Option.some.inj h]
    · rw [ih h]

theorem mem_of_mem_replaceKey (h : x ∈ replaceKey key k b l) : x = b ∨ x ∈ l := by
  induction l with
  | nil => simp at h
  | cons a l ih =>
    rw [replaceKey_cons] at h
    split_ifs at h with ha
    · rcases List.mem_cons.mp h with rfl | h
      · exact Or.inl rfl
      · exact Or.inr (List.mem_cons_of_mem _ h)
    · rcases List.mem_cons.mp h with rfl | h
      · exact Or.inr List.mem_cons_self
      · exact (ih h).imp id (List.mem_cons_of_mem _)

@[simp] theorem map_key_replaceKey (hb : key b = k) :
    (replaceKey key k b l).map key = l.map key := by
  induction l with
  | nil => rfl
  | cons a l ih =>
    rw [replaceKey_cons]
    split_ifs with ha
    · rw [List.map_cons, List.map_cons, hb, ha]
    · rw [List.map_cons, List.map_cons, ih]

theorem findKey_replaceKey_self (hb : key b = k) (hk : k ∈ l.map key) :
    findKey key k (replaceKey key k b l) = some b := by
  induction l with
  | nil => simp at hk
  | cons a l ih =>
    rw [replaceKey_cons]
    split_ifs with ha
    · rw [findKey_cons, if_pos hb]
    · rw [findKey_cons, if_neg ha]
      refine ih ?_
      rcases List.mem_cons.mp hk with h | h
      · exact absurd h.symm ha
      · exact h

theorem findKey_replaceKey_of_ne (hb : key b = k) (h : k' ≠ k) :
    findKey key k' (replaceKey key k b l) = findKey key k' l := by
  induction l with
  | nil => rfl
  | cons a l ih =>
    rw [replaceKey_cons]
    split_ifs with ha
    · rw [findKey_cons, findKey_cons, if_neg (fun h' => h (h'.symm.trans hb)),
        if_neg (fun h' => h (h'.symm.trans ha))]
    · rw [findKey_cons, findKey_cons, ih]

theorem findKey_replaceKey (hb : key b = k) (hk : k ∈ l.map key) :
    findKey key k' (replaceKey key k b l) = if k' = k then some b else findKey key k' l := by
  split_ifs with h
  · rw [h, findKey_replaceKey_self hb hk]
  · exact findKey_replaceKey_of_ne hb h

end KeyedList
