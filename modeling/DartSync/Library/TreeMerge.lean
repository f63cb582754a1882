import DartSync.Library.TreeSet

/-!
# Two patches made from one tree

`a` and `b` are edited from `old` independently, and the patch of each is applied to the other. The
patch of `b` can be added to `a` exactly when `b` adds nothing below a folder that `a` has deleted
(`canAdd_other_iff`), and when this holds both ways the two orders end with the same tree
(`merge_comm`).
-/

namespace TreeSet

variable {N E : Type*} {M : Marking N E} {old a b addA addB delA delB : TreeSet N E}
  {p q : List N} {e : E}

/-- Every folder of `d` that `s` has too, the root apart, leads to an entry of `d`. -/
def Trim (d s : TreeSet N E) : Prop :=
  ∀ p ∈ d.nodes, p ∈ s.nodes → p ≠ [] → ∃ r e, (p ++ r, e) ∈ d.entries

/-- `b` adds no entry in or below a folder of `old` that `a` has deleted. -/
def Spares (old a b : TreeSet N E) : Prop :=
  ∀ p r e, p ∈ old.nodes → p ∉ a.nodes → (p ++ r, e) ∈ b.entries → (p ++ r, e) ∈ old.entries

section Merge

variable (hold : old.WellFormed M) (ha : a.WellFormed M) (hb : b.WellFormed M)

section Other

variable (hdelB : delB.IsDiff old b) (haddB : addB.IsDiff b old)

include hold hb hdelB

/-- Nothing that `b` still holds lies below a marker that the patch of `b` deletes from `a`. -/
theorem not_cut_of_mem_other (hp : p ∈ b.nodes) : ¬ Cut M a delB p := by
  rintro ⟨q, m, r, rfl, -, hm, hdir⟩
  rw [hdelB.entries_eq] at hm
  have hnode : q ++ [M.name m] ∈ b.nodes := hb.prefix r (by simpa using hp)
  have hmark := (hb.mark_iff q (M.name m)).mpr hnode
  rw [← hold.mark_of_dir q m hm.1 hdir] at hmark
  exact hm.2 hmark

include ha haddB

/-- **Adding to the other tree.** The additions of `b` can be added to `a`, once the deletions of `b`
have been removed, exactly when `b` adds nothing below a folder that `a` has deleted. -/
theorem canAdd_other_iff (htrim : addB.Trim old) :
    CanAdd M (a.remove M delB) addB ↔ Spares old a b := by
  constructor
  · intro hcan p r e hp hpa he
    by_contra hne
    have hadd : (p ++ r, e) ∈ addB.entries := by
      rw [haddB.entries_eq]
      exact ⟨he, hne⟩
    have hnode : p ∈ addB.nodes := haddB.prefix r (haddB.holds _ e hadd)
    rcases List.eq_nil_or_concat p with rfl | ⟨p, n, rfl⟩
    · exact hpa ha.root
    · rw [List.concat_eq_append] at hp hpa hnode
      rcases hcan.found p n hnode with hfound | ⟨m, hm, hdir, rfl⟩
      · exact hpa hfound.1
      · rw [haddB.entries_eq] at hm
        apply hm.2
        rw [hb.mark_of_dir p m hm.1 hdir, hold.mark_iff]
        exact hp
  · intro hspare
    refine ⟨fun q m hm hdir => mem_diff_nodes_of_marker hold hb haddB hm hdir, ?_, ?_⟩
    · intro q m hm hdir
      have heq := hb.mark_of_dir q m (by rw [haddB.entries_eq] at hm; exact hm.1) hdir
      have hiff := (ha.remove delB).mark_iff q (M.name m)
      rwa [← heq] at hiff
    · intro q n hn
      have hnb := haddB.nodes_le hn
      by_cases ho : q ++ [n] ∈ old.nodes
      · refine Or.inl ⟨?_, not_cut_of_mem_other hold hb hdelB hnb⟩
        by_contra hna
        obtain ⟨r, e, he⟩ := htrim _ hn ho (by simp)
        rw [haddB.entries_eq] at he
        exact he.2 (hspare _ r e ho hna he.1)
      · refine Or.inr ⟨M.mark n, ?_, M.dir_mark n, M.name_mark n⟩
        rw [haddB.entries_eq]
        exact ⟨(hb.mark_iff q n).mpr hnb, fun h => ho ((hold.mark_iff q n).mp h)⟩

omit hold hdelB in
/-- In the merged tree markers and folders correspond, as they do in `a` and `b`. -/
theorem merge_mark_iff (hcan : CanAdd M (a.remove M delB) addB) (n : N) :
    (q, M.mark n) ∈ ((a.remove M delB).union addB).entries ↔
      q ++ [n] ∈ ((a.remove M delB).union addB).nodes := by
  have hleft := (ha.remove delB).mark_iff q n
  constructor
  · rintro (h | h)
    · exact Or.inl (hleft.mp h)
    · have := hcan.marked q _ h (M.dir_mark n)
      rw [M.name_mark] at this
      exact Or.inr this
  · rintro (h | h)
    · exact Or.inl (hleft.mpr h)
    · rcases hcan.found q n h with h | ⟨m, hm, hdir, rfl⟩
      · exact Or.inl (hleft.mpr h)
      · refine Or.inr ?_
        rw [← hb.mark_of_dir q m (by rw [haddB.entries_eq] at hm; exact hm.1) hdir]
        exact hm

omit ha haddB in
/-- Nothing of `a` that `old` lacks lies below a marker that the patch of `b` deletes. -/
theorem not_cut_of_spares (hspare : Spares old b a) (he : (q, e) ∈ a.entries)
    (hne : (q, e) ∉ old.entries) : ¬ Cut M a delB q := by
  rintro ⟨p, m, r, rfl, -, hm, hdir⟩
  rw [hdelB.entries_eq] at hm
  have heq := hold.mark_of_dir p m hm.1 hdir
  have hold' : p ++ [M.name m] ∈ old.nodes := by
    rw [← hold.mark_iff, ← heq]
    exact hm.1
  have hb' : p ++ [M.name m] ∉ b.nodes := by
    rw [← hb.mark_iff, ← heq]
    exact hm.2
  have hsplit : p ++ M.name m :: r = p ++ [M.name m] ++ r := by simp
  rw [hsplit] at he hne
  exact hne (hspare _ r e hold' hb' he)

omit ha in
/-- The entries after both patches: those of `a` and of `b`, those of `old` only if both kept them. -/
theorem mem_merge_entries (hspare : Spares old b a) :
    (q, e) ∈ ((a.remove M delB).union addB).entries ↔
      ((q, e) ∈ a.entries ∨ (q, e) ∈ b.entries) ∧
        ((q, e) ∈ old.entries → (q, e) ∈ a.entries ∧ (q, e) ∈ b.entries) := by
  show ((q, e) ∈ a.entries ∧ (q, e) ∉ delB.entries ∧ ¬ Cut M a delB q) ∨ (q, e) ∈ addB.entries ↔ _
  rw [hdelB.entries_eq, haddB.entries_eq]
  constructor
  · rintro (⟨hea, hnd, -⟩ | ⟨heb, hno⟩)
    · exact ⟨Or.inl hea, fun ho => ⟨hea, not_not.mp fun hnb => hnd ⟨ho, hnb⟩⟩⟩
    · exact ⟨Or.inr heb, fun ho => absurd ho hno⟩
  · rintro ⟨hor, hboth⟩
    by_cases ho : (q, e) ∈ old.entries
    · obtain ⟨hea, heb⟩ := hboth ho
      exact Or.inl ⟨hea, fun h => h.2 heb, not_cut_of_mem_other hold hb hdelB (hb.holds q e heb)⟩
    · refine hor.imp (fun hea => ⟨hea, fun h => ho h.1, ?_⟩) fun heb => ⟨heb, ho⟩
      exact not_cut_of_spares hold hb hdelB hspare hea ho

end Other

variable (hdelA : delA.IsDiff old a) (haddA : addA.IsDiff a old) (hdelB : delB.IsDiff old b)
  (haddB : addB.IsDiff b old)

include hold ha hb hdelA haddA hdelB haddB

/-- **Merging.** When both patches can be added, the two orders end with the same tree. -/
theorem merge_comm (hcanA : CanAdd M (b.remove M delA) addA)
    (hcanB : CanAdd M (a.remove M delB) addB) (hsa : Spares old a b) (hsb : Spares old b a) :
    (a.remove M delB).union addB = (b.remove M delA).union addA := by
  have hentries : ((a.remove M delB).union addB).entries =
      ((b.remove M delA).union addA).entries := by
    ext ⟨q, e⟩
    rw [mem_merge_entries hold hb hdelB haddB hsb, mem_merge_entries hold ha hdelA haddA hsa]
    exact and_congr or_comm (imp_congr_right fun _ => and_comm)
  ext p
  · rw [hentries]
  · rcases List.eq_nil_or_concat p with rfl | ⟨q, n, rfl⟩
    · exact iff_of_true (Or.inl ⟨ha.root, not_cut_nil⟩) (Or.inl ⟨hb.root, not_cut_nil⟩)
    · rw [List.concat_eq_append, ← merge_mark_iff ha hb haddB hcanB,
        ← merge_mark_iff hb ha haddA hcanA, hentries]

end Merge

end TreeSet
