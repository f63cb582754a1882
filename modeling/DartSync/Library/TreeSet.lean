import Mathlib.Data.List.Induction
import Mathlib.Data.Set.Basic
import Mathlib.Tactic.Common

/-!
# Directory trees as sets

A directory tree seen as the set of its entries, each at the path of the folder that holds it, and
the set of the paths of its folders. A folder is listed twice: as a folder and as an entry of its
parent that marks it. Differences of trees are sets of the same kind in which the two need not
agree.

`remove` deletes what another tree lists, and everything below a deleted marker; `union` adds.
`patch_eq` is the round trip: removing `old - new` and adding `new - old` turns `old` into `new`.
`noConflict_iff` says exactly when the same patch, applied to a third tree, can be added and
leaves a well-formed tree.
-/

variable {N E : Type*}

/-- A tree: entries at folder paths, and folder paths. -/
@[ext] structure TreeSet (N E : Type*) where
  entries : Set (List N × E)
  nodes : Set (List N)

/-- How entries carry names and which of them mark folders. -/
structure Marking (N E : Type*) where
  name : E → N
  dir : E → Prop
  mark : N → E
  name_mark : ∀ n, name (mark n) = n
  dir_mark : ∀ n, dir (mark n)

namespace TreeSet

/-! ## Well-formed trees -/

/-- The folder paths contain the root, are closed under parents and hold every entry. -/
structure Rooted (t : TreeSet N E) : Prop where
  root : [] ∈ t.nodes
  parent : ∀ q n, q ++ [n] ∈ t.nodes → q ∈ t.nodes
  holds : ∀ q e, (q, e) ∈ t.entries → q ∈ t.nodes

/-- No name twice in a folder, and markers and folders correspond. -/
structure WellFormed (M : Marking N E) (t : TreeSet N E) : Prop extends t.Rooted where
  unique : ∀ q e e', (q, e) ∈ t.entries → (q, e') ∈ t.entries → M.name e = M.name e' → e = e'
  mark_of_dir : ∀ q e, (q, e) ∈ t.entries → M.dir e → e = M.mark (M.name e)
  mark_iff : ∀ q n, (q, M.mark n) ∈ t.entries ↔ q ++ [n] ∈ t.nodes

/-- `d` lists the entries of `t` that `s` lacks, in folders of `t`, among them all that `s` lacks. -/
structure IsDiff (d t s : TreeSet N E) : Prop extends d.Rooted where
  entries_eq : d.entries = t.entries \ s.entries
  nodes_le : d.nodes ⊆ t.nodes
  nodes_ge : t.nodes \ s.nodes ⊆ d.nodes

theorem Rooted.prefix {t : TreeSet N E} (ht : t.Rooted) {q : List N} :
    ∀ r : List N, q ++ r ∈ t.nodes → q ∈ t.nodes := by
  intro r
  induction r using List.reverseRecOn with
  | nil => intro h; rwa [List.append_nil] at h
  | append_singleton r n ih =>
    intro h
    rw [← List.append_assoc] at h
    exact ih (ht.parent _ _ h)

/-! ## Removing and adding -/

/-- `p` passes through a folder whose marker `s` deletes from `t`. -/
def Cut (M : Marking N E) (t s : TreeSet N E) (p : List N) : Prop :=
  ∃ q m r, p = q ++ M.name m :: r ∧ (q, m) ∈ t.entries ∧ (q, m) ∈ s.entries ∧ M.dir m

/-- `t` without the entries of `s` and without all that lies below a deleted marker. -/
def remove (M : Marking N E) (t s : TreeSet N E) : TreeSet N E where
  entries := {x | x ∈ t.entries ∧ x ∉ s.entries ∧ ¬ Cut M t s x.1}
  nodes := {p | p ∈ t.nodes ∧ ¬ Cut M t s p}

/-- Everything in either tree. -/
def union (t s : TreeSet N E) : TreeSet N E where
  entries := t.entries ∪ s.entries
  nodes := t.nodes ∪ s.nodes

/-- No folder holds two markers of one name. -/
def UniqueMarks (M : Marking N E) (t : TreeSet N E) : Prop :=
  ∀ q e e', (q, e) ∈ t.entries → (q, e') ∈ t.entries → M.dir e → M.dir e' →
    M.name e = M.name e' → e = e'

/-- What makes adding `a` to `t` meaningful: `a` has the folder of each marker it holds, `t` has
marker and folder together wherever `a` has the marker, and every folder `a` adds into exists in
`t` or is marked in `a`. -/
structure CanAdd (M : Marking N E) (t a : TreeSet N E) : Prop where
  marked : ∀ q m, (q, m) ∈ a.entries → M.dir m → q ++ [M.name m] ∈ a.nodes
  agree : ∀ q m, (q, m) ∈ a.entries → M.dir m → ((q, m) ∈ t.entries ↔ q ++ [M.name m] ∈ t.nodes)
  found : ∀ q n, q ++ [n] ∈ a.nodes →
    q ++ [n] ∈ t.nodes ∨ ∃ m, (q, m) ∈ a.entries ∧ M.dir m ∧ M.name m = n

variable {M : Marking N E} {t s a d old new : TreeSet N E} {p q : List N} {n : N}

theorem not_cut_nil : ¬ Cut M t s [] := by
  rintro ⟨q, m, r, h, -⟩
  simp at h

theorem Cut.append (h : Cut M t s p) (r : List N) : Cut M t s (p ++ r) := by
  obtain ⟨q, m, r', rfl, hm⟩ := h
  exact ⟨q, m, r' ++ r, by simp, hm⟩

/-- A path is cut above its last component or at it. -/
theorem cut_append_singleton : Cut M t s (p ++ [n]) ↔
    Cut M t s p ∨ ∃ m, (p, m) ∈ t.entries ∧ (p, m) ∈ s.entries ∧ M.dir m ∧ M.name m = n := by
  constructor
  · rintro ⟨q, m, r, h, hm⟩
    rcases List.eq_nil_or_concat r with rfl | ⟨r, k, rfl⟩
    · obtain ⟨rfl, hn⟩ := List.append_inj' h rfl
      exact Or.inr ⟨m, hm.1, hm.2.1, hm.2.2, (by simpa using hn.symm)⟩
    · rw [List.concat_eq_append, ← List.cons_append, ← List.append_assoc] at h
      obtain ⟨rfl, -⟩ := List.append_inj' h rfl
      exact Or.inl ⟨q, m, r, rfl, hm⟩
  · rintro (h | ⟨m, hm, hm', hd, rfl⟩)
    · exact h.append _
    · exact ⟨p, m, [], rfl, hm, hm', hd⟩

theorem WellFormed.uniqueMarks (hd : d.IsDiff t s) (ht : t.WellFormed M) : d.UniqueMarks M := by
  intro q e e' he he' _ _
  rw [hd.entries_eq] at he he'
  exact ht.unique q e e' he.1 he'.1

/-- Removing entries from a well-formed tree leaves a well-formed tree. -/
theorem WellFormed.remove (ht : t.WellFormed M) (s : TreeSet N E) :
    (t.remove M s).WellFormed M where
  root := ⟨ht.root, not_cut_nil⟩
  parent q n h := ⟨ht.parent q n h.1, fun hc => h.2 (hc.append _)⟩
  holds q e h := ⟨ht.holds q e h.1, h.2.2⟩
  unique q e e' h h' := ht.unique q e e' h.1 h'.1
  mark_of_dir q e h := ht.mark_of_dir q e h.1
  mark_iff q n := by
    have hcut : Cut M t s (q ++ [n]) ↔
        Cut M t s q ∨ (q, M.mark n) ∈ t.entries ∧ (q, M.mark n) ∈ s.entries := by
      rw [cut_append_singleton]
      refine or_congr Iff.rfl ⟨?_, fun h => ⟨_, h.1, h.2, M.dir_mark n, M.name_mark n⟩⟩
      rintro ⟨m, hm, hm', hd, rfl⟩
      rw [← ht.mark_of_dir q m hm hd]
      exact ⟨hm, hm'⟩
    have hmark := ht.mark_iff q n
    show _ ∧ _ ∧ _ ↔ _ ∧ _
    rw [hcut, ← hmark]
    tauto

/-! ## Patches -/

section Patch

variable (hold : old.WellFormed M) (hnew : new.WellFormed M) (hd : d.IsDiff old new)
  (ha : a.IsDiff new old)

include hold hnew hd

/-- Nothing that `new` still holds lies below a marker deleted by `old - new`. -/
theorem not_cut_of_mem_new (hp : p ∈ new.nodes) : ¬ Cut M t d p := by
  rintro ⟨q, m, r, rfl, -, hm, hdir⟩
  rw [hd.entries_eq] at hm
  have hnode : q ++ [M.name m] ∈ new.nodes := hnew.prefix r (by simpa using hp)
  have hmark := (hnew.mark_iff q (M.name m)).mpr hnode
  rw [← hold.mark_of_dir q m hm.1 hdir] at hmark
  exact hm.2 hmark

/-- Removing `old - new` from `old` leaves what the two share. -/
theorem remove_diff_entries : (old.remove M d).entries = old.entries ∩ new.entries := by
  ext ⟨q, e⟩
  constructor
  · rintro ⟨ho, hnd, -⟩
    rw [hd.entries_eq] at hnd
    exact ⟨ho, not_not.mp fun hn => hnd ⟨ho, hn⟩⟩
  · rintro ⟨ho, hn⟩
    refine ⟨ho, ?_, not_cut_of_mem_new hold hnew hd (hnew.holds q e hn)⟩
    rw [hd.entries_eq]
    exact fun h => h.2 hn

theorem remove_diff_nodes : (old.remove M d).nodes = old.nodes ∩ new.nodes := by
  ext p
  refine ⟨fun h => ⟨h.1, ?_⟩, fun h => ⟨h.1, not_cut_of_mem_new hold hnew hd h.2⟩⟩
  obtain ⟨ho, hcut⟩ := h
  induction p using List.reverseRecOn with
  | nil => exact hnew.root
  | append_singleton q n ih =>
    -- a folder that is new's no longer has lost its marker
    by_contra hn
    have hmo := (hold.mark_iff q n).mpr ho
    have hmd : (q, M.mark n) ∈ d.entries := by
      rw [hd.entries_eq]
      exact ⟨hmo, fun hmn => hn ((hnew.mark_iff q n).mp hmn)⟩
    exact hcut ⟨q, M.mark n, [], by rw [M.name_mark], hmo, hmd, M.dir_mark n⟩

include ha

/-- **Round trip.** Removing `old - new` from `old` and adding `new - old` gives `new`. -/
theorem patch_eq : (old.remove M d).union a = new := by
  ext x
  · show x ∈ (old.remove M d).entries ∪ a.entries ↔ _
    rw [remove_diff_entries hold hnew hd, ha.entries_eq]
    constructor
    · rintro (h | h)
      exacts [h.2, h.1]
    · intro h
      by_cases ho : x ∈ old.entries
      exacts [Or.inl ⟨ho, h⟩, Or.inr ⟨h, ho⟩]
  · show x ∈ (old.remove M d).nodes ∪ a.nodes ↔ _
    rw [remove_diff_nodes hold hnew hd]
    constructor
    · rintro (h | h)
      exacts [h.2, ha.nodes_le h]
    · intro h
      by_cases ho : x ∈ old.nodes
      exacts [Or.inl ⟨ho, h⟩, Or.inr (ha.nodes_ge ⟨h, ho⟩)]

end Patch

/-! ## Patches applied to another tree -/

/-- The patch `a`, `d` does not conflict with `t`: where it adds an entry, `t` has no other entry
of that name than one the patch deletes; and a folder it adds into without marking it is in `t`. -/
structure NoConflict (M : Marking N E) (t a d : TreeSet N E) : Prop where
  free : ∀ q e e', (q, e) ∈ a.entries → (q, e') ∈ t.entries → M.name e = M.name e' →
    e' = e ∨ (q, e') ∈ d.entries
  exist : ∀ q n, q ++ [n] ∈ a.nodes → (q, M.mark n) ∉ a.entries → q ++ [n] ∈ t.nodes

section Conflict

variable (hold : old.WellFormed M) (hnew : new.WellFormed M) (hd : d.IsDiff old new)
  (ha : a.IsDiff new old)

include hold hnew ha

/-- A marker that `new - old` holds comes with its folder. -/
theorem mem_diff_nodes_of_marker {m : E} (hm : (q, m) ∈ a.entries) (hdir : M.dir m) :
    q ++ [M.name m] ∈ a.nodes := by
  rw [ha.entries_eq] at hm
  have heq := hnew.mark_of_dir q m hm.1 hdir
  refine ha.nodes_ge ⟨?_, fun ho => hm.2 ?_⟩
  · rw [← hnew.mark_iff, ← heq]; exact hm.1
  · rw [heq, hold.mark_iff]; exact ho

include hd

theorem NoConflict.canAdd (ht : t.WellFormed M) (h : NoConflict M t a d) :
    CanAdd M (t.remove M d) a where
  marked q m hm hdir := mem_diff_nodes_of_marker hold hnew ha hm hdir
  agree q m hm hdir := by
    have heq := hnew.mark_of_dir q m (by rw [ha.entries_eq] at hm; exact hm.1) hdir
    have hiff := (ht.remove d).mark_iff q (M.name m)
    rwa [← heq] at hiff
  found q n hn := by
    by_cases hm : (q, M.mark n) ∈ a.entries
    · exact Or.inr ⟨_, hm, M.dir_mark n, M.name_mark n⟩
    · exact Or.inl ⟨h.exist q n hn hm, not_cut_of_mem_new hold hnew hd (ha.nodes_le hn)⟩

theorem NoConflict.wellFormed (ht : t.WellFormed M) (h : NoConflict M t a d) :
    ((t.remove M d).union a).WellFormed M := by
  have ht' := ht.remove d
  have hadd := h.canAdd hold hnew hd ha ht
  have hmem : ∀ {q e}, (q, e) ∈ a.entries → (q, e) ∈ new.entries := fun he => by
    rw [ha.entries_eq] at he; exact he.1
  -- an entry that is kept and an added one of the same name are the same
  have hkeep : ∀ {q e e'}, (q, e) ∈ a.entries → (q, e') ∈ (t.remove M d).entries →
      M.name e = M.name e' → e' = e := fun he he' hn =>
    (h.free _ _ _ he he'.1 hn).resolve_right he'.2.1
  refine ⟨⟨Or.inl ht'.root, ?_, ?_⟩, ?_, ?_, ?_⟩
  · rintro q n (hq | hq)
    exacts [Or.inl (ht'.parent q n hq), Or.inr (ha.parent q n hq)]
  · rintro q e (hq | hq)
    exacts [Or.inl (ht'.holds q e hq), Or.inr (ha.holds q e hq)]
  · rintro q e e' (he | he) (he' | he') hn
    · exact ht'.unique q e e' he he' hn
    · exact hkeep he' he hn.symm
    · exact (hkeep he he' hn).symm
    · exact hnew.unique q e e' (hmem he) (hmem he') hn
  · rintro q e (he | he) hdir
    exacts [ht'.mark_of_dir q e he hdir, hnew.mark_of_dir q e (hmem he) hdir]
  · intro q n
    constructor
    · rintro (hm | hm)
      · exact Or.inl ((ht'.mark_iff q n).mp hm)
      · have := hadd.marked q _ hm (M.dir_mark n)
        rw [M.name_mark] at this
        exact Or.inr this
    · rintro (hn | hn)
      · exact Or.inl ((ht'.mark_iff q n).mpr hn)
      · rcases hadd.found q n hn with hn | ⟨m, hm, hdir, rfl⟩
        · exact Or.inl ((ht'.mark_iff q n).mpr hn)
        · rw [← hnew.mark_of_dir q m (hmem hm) hdir]
          exact Or.inr hm

/-- **Stale patches.** A patch `new - old`, `old - new` can be applied to the well-formed tree `t`
and leaves a well-formed tree exactly when it does not conflict with `t`. -/
theorem noConflict_iff (ht : t.WellFormed M) :
    CanAdd M (t.remove M d) a ∧ ((t.remove M d).union a).WellFormed M ↔ NoConflict M t a d := by
  refine ⟨fun ⟨hadd, hwf⟩ => ⟨?_, ?_⟩, fun h => ⟨h.canAdd hold hnew hd ha ht,
    h.wellFormed hold hnew hd ha ht⟩⟩
  · intro q e e' he he' hn
    by_contra hne
    rw [not_or] at hne
    have hq : q ∈ new.nodes := ha.nodes_le (ha.holds q e he)
    have hkept : (q, e') ∈ (t.remove M d).entries :=
      ⟨he', hne.2, not_cut_of_mem_new hold hnew hd hq⟩
    exact hne.1 (hwf.unique q e' e (Or.inl hkept) (Or.inr he) hn.symm)
  · intro q n hn hm
    rcases hadd.found q n hn with h | ⟨m, hm', hdir, rfl⟩
    · exact h.1
    · rw [ha.entries_eq] at hm hm'
      rw [← hnew.mark_of_dir q m hm'.1 hdir] at hm
      exact absurd hm' hm

/-- A patch applied to the tree it was made from does not conflict. -/
theorem noConflict_self : NoConflict M old a d where
  free q e e' he he' hn := by
    by_cases hn' : (q, e') ∈ new.entries
    · rw [ha.entries_eq] at he
      exact Or.inl (hnew.unique q e' e hn' he.1 hn.symm)
    · exact Or.inr (by rw [hd.entries_eq]; exact ⟨he', hn'⟩)
  exist q n hn hm := by
    rw [ha.entries_eq] at hm
    have hnew' := (hnew.mark_iff q n).mpr (ha.nodes_le hn)
    exact (hold.mark_iff q n).mp (not_not.mp fun ho => hm ⟨hnew', ho⟩)

end Conflict

/-! ## Patches applied twice -/

theorem not_cut_of_disjoint (h : ∀ x ∈ t.entries, x ∉ d.entries) : ¬ Cut M t d p := by
  rintro ⟨q, m, r, rfl, hm, hm', -⟩
  exact h (q, m) hm hm'

/-- Nothing is removed where nothing is listed. -/
theorem remove_of_disjoint (h : ∀ x ∈ t.entries, x ∉ d.entries) : t.remove M d = t := by
  ext x
  · exact ⟨fun hx => hx.1, fun hx => ⟨hx, h x hx, not_cut_of_disjoint h⟩⟩
  · exact ⟨fun hx => hx.1, fun hx => ⟨hx, not_cut_of_disjoint h⟩⟩

theorem union_union_right : (t.union a).union a = t.union a := by
  ext x
  · exact ⟨fun hx => hx.elim id Or.inr, Or.inl⟩
  · exact ⟨fun hx => hx.elim id Or.inr, Or.inl⟩

/-- What has been added can be added again. -/
theorem CanAdd.again (h : CanAdd M t a) : CanAdd M (t.union a) a where
  marked := h.marked
  agree q m hm hdir := iff_of_true (Or.inr hm) (Or.inr (h.marked q m hm hdir))
  found _ _ hn := Or.inl (Or.inr hn)

/-- After a patch `new - old`, `old - new` the tree holds nothing that the patch deletes. -/
theorem disjoint_patch (hd : d.IsDiff old new) (ha : a.IsDiff new old) :
    ∀ x ∈ ((t.remove M d).union a).entries, x ∉ d.entries := by
  rintro x (hx | hx) hxd
  · exact hx.2.1 hxd
  · rw [ha.entries_eq] at hx
    rw [hd.entries_eq] at hxd
    exact hx.2 hxd.1

/-- **Idempotence.** A patch leaves the tree it has led to as it is. -/
theorem patch_patch (hd : d.IsDiff old new) (ha : a.IsDiff new old) :
    (((t.remove M d).union a).remove M d).union a = (t.remove M d).union a := by
  rw [remove_of_disjoint (disjoint_patch hd ha), union_union_right]

end TreeSet
