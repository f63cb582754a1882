import DartSync.Directory

/-!
# Putting nodes into a directory

A loop over the additions makes a directory or a file at some paths and passes over others. What it
leaves at a path is what was there or what it put there, and the kind stays (`foldlM_put_ok`); and
it does put everything that fits and whose parent exists by then (`exists_foldlM_put`).
-/

namespace DartSync

variable {dir dir' : Directory} {p q : List CString} {node node' : Node} {old new : Option Node}
  {α : Type*} {l : List α} {x : α}

/-- The node can be put where `old` is: nothing, or a node of its kind. -/
def Node.FitsOn (node : Node) (old : Option Node) : Prop := ∀ n, old = some n → (n = .dir ↔ node = .dir)

theorem Node.fitsOn_none (node : Node) : node.FitsOn none := nofun

theorem Node.fitsOn_self (node : Node) : node.FitsOn (some node) := by
  rintro n ⟨⟩
  rfl

theorem Node.FitsOn.trans (h : node.FitsOn old) (h' : node'.FitsOn (some node)) : node'.FitsOn old :=
  fun n hn => (h n hn).trans (h' node rfl)

theorem Node.FitsOn.eq_dir (h : node.FitsOn (some .dir)) : node = .dir := (h .dir rfl).mp rfl

namespace Directory

/-- What a turn of a loop does at a path: nothing, `mkdir`, or the writing of a file. -/
def put (dir : Directory) (p : List CString) : Option Node → Except Abort Directory
  | none => .ok dir
  | some .dir => .ok (dir.mkdir p)
  | some (.file content mtime) => dir.write p content mtime

/-- Of one turn, a path is as it was or has what was put there. -/
theorem put_ok (h : dir.put p new = .ok dir') (q : List CString) : dir'.lookup q = dir.lookup q ∨
    q = p ∧ ∃ node, new = some node ∧ dir'.lookup q = some node ∧ node.FitsOn (dir.lookup q) := by
  cases new with
  | none =>
    cases h
    exact Or.inl rfl
  | some node =>
    cases node with
    | dir =>
      cases h
      by_cases hq : q = p
      · subst hq
        unfold mkdir
        split_ifs with hroom hfree
        · refine Or.inr ⟨rfl, .dir, rfl, by rw [lookup_insert, if_pos rfl], ?_⟩
          rw [hfree]
          exact Node.fitsOn_none _
        · exact Or.inl rfl
        · exact Or.inl rfl
      · exact Or.inl (lookup_mkdir_of_ne hq)
    | file content mtime =>
      replace h : dir.write p content mtime = .ok dir' := h
      rw [lookup_write h]
      by_cases hq : q = p
      · subst hq
        refine Or.inr ⟨rfl, _, rfl, if_pos rfl, fun n hn => iff_of_false ?_ ?_⟩
        · rintro rfl
          unfold write at h
          split_ifs at h with hroom
          exact hroom.2.1 hn
        · rintro ⟨⟩
      · exact Or.inl (if_neg hq)

theorem lookup_put_of_dir (h : dir.put p new = .ok dir') (hdir : dir.lookup q = some .dir) :
    dir'.lookup q = some .dir := by
  rcases put_ok h q with hsame | ⟨-, node, -, hnode, hfit⟩
  · exact hsame.trans hdir
  · rw [hdir] at hfit
    rw [hnode, hfit.eq_dir]

/-- What fits is put into an existing directory. -/
theorem exists_put (hp : p ≠ []) (hnames : ∀ n ∈ p, IsName n) (hparent : dir.IsDir p.dropLast)
    (hfit : node.FitsOn (dir.lookup p)) :
    ∃ dir', dir.put p (some node) = .ok dir' ∧ dir'.lookup p = some node := by
  match node with
  | .dir =>
    refine ⟨_, rfl, ?_⟩
    cases hlook : dir.lookup p with
    | none => exact lookup_mkdir_self hp hlook hparent hnames
    | some n =>
      have hdir : n = .dir := (hfit n hlook).mpr rfl
      unfold mkdir
      rw [hdir] at hlook
      rw [dif_neg fun hroom : dir.HasRoom p => hroom.2.1 hlook, hlook]
  | .file content mtime =>
    have hroom : dir.HasRoom p := by
      refine ⟨hp, fun hdir => ?_, hparent, hnames⟩
      rw [hdir] at hfit
      cases hfit.eq_dir
    refine ⟨_, dif_pos hroom, ?_⟩
    rw [lookup_insert, if_pos rfl]

variable {path : α → List CString} {make : α → Option Node}

/-- **The loop.** A path is as it was or has what some turn put there. -/
theorem foldlM_put_ok (h : l.foldlM (fun dir x => dir.put (path x) (make x)) dir = .ok dir')
    (q : List CString) : dir'.lookup q = dir.lookup q ∨ ∃ x ∈ l, path x = q ∧
      ∃ node, make x = some node ∧ dir'.lookup q = some node ∧ node.FitsOn (dir.lookup q) := by
  induction l generalizing dir with
  | nil =>
    cases h
    exact Or.inl rfl
  | cons x l ih =>
    rw [List.foldlM_cons, bind_eq_ok] at h
    obtain ⟨dir1, h1, h⟩ := h
    rcases put_ok h1 q with hq | ⟨rfl, node, hnode, hq, hfit⟩
    · rw [← hq]
      refine (ih h).imp id fun ⟨y, hy, hrest⟩ => ⟨y, List.mem_cons_of_mem x hy, hrest⟩
    · rcases ih h with hq' | ⟨y, hy, hpath, node', hnode', hq', hfit'⟩
      · exact Or.inr ⟨x, List.mem_cons_self, rfl, node, hnode, hq'.trans hq, hfit⟩
      · rw [hq] at hfit'
        exact Or.inr ⟨y, List.mem_cons_of_mem x hy, hpath, node', hnode', hq', hfit.trans hfit'⟩

/-- A path keeps its kind. -/
theorem fitsOn_of_foldlM_put (h : l.foldlM (fun dir x => dir.put (path x) (make x)) dir = .ok dir')
    (hq : dir.lookup q = some node) : ∃ node', dir'.lookup q = some node' ∧ node'.FitsOn (some node) := by
  rcases foldlM_put_ok h q with hsame | ⟨x, -, -, node', -, hq', hfit⟩
  · exact ⟨node, hsame.trans hq, node.fitsOn_self⟩
  · exact ⟨node', hq', hq ▸ hfit⟩

/-- A file that has been written is there in the end, and no directory was in its place. -/
theorem lookup_foldlM_put_file {content : List UInt8} {mtime : Int64}
    (h : l.foldlM (fun dir x => dir.put (path x) (make x)) dir = .ok dir') (hx : x ∈ l)
    (hmake : make x = some (.file content mtime)) :
    dir.lookup (path x) ≠ some .dir ∧ ∃ node, dir'.lookup (path x) = some node ∧ node ≠ .dir := by
  induction l generalizing dir with
  | nil => exact absurd hx List.not_mem_nil
  | cons y l ih =>
    rw [List.foldlM_cons, bind_eq_ok] at h
    obtain ⟨dir1, h1, h⟩ := h
    rcases List.mem_cons.mp hx with rfl | hx
    · rw [hmake] at h1
      have hroom : dir.lookup (path x) ≠ some .dir := by
        intro hdir
        rcases put_ok h1 (path x) with hsame | ⟨-, node, hnode, -, hfit⟩
        · have hwritten := lookup_write (q := path x) h1
          rw [if_pos rfl, hsame, hdir] at hwritten
          cases hwritten
        · rw [hdir] at hfit
          cases hnode
          cases hfit.eq_dir
      have hwritten := lookup_write (q := path x) h1
      rw [if_pos rfl] at hwritten
      obtain ⟨node, hnode, hfit⟩ := fitsOn_of_foldlM_put h hwritten
      refine ⟨hroom, node, hnode, ?_⟩
      rintro rfl
      exact nomatch (hfit _ rfl).mpr rfl
    · obtain ⟨hroom, hfile⟩ := ih h hx
      exact ⟨fun hdir => hroom (lookup_put_of_dir h1 hdir), hfile⟩

/-- **What is put.** The loop puts every good item, when it fits and its parent exists or comes before
it; the others are directories that may not come about. -/
theorem exists_foldlM_put {good : α → Prop}
    (hbad : ∀ x ∈ l, ¬ good x → ∀ node, make x = some node → node = .dir)
    (hsame : ∀ x ∈ l, ∀ y ∈ l, path x = path y →
      ∀ node node', make x = some node → make y = some node' → node = node')
    (hfit : ∀ x ∈ l, good x → ∀ node, make x = some node →
      path x ≠ [] ∧ (∀ n ∈ path x, IsName n) ∧ node.FitsOn (dir.lookup (path x)))
    (hparent : ∀ l1 x l2, l = l1 ++ x :: l2 → good x → make x ≠ none →
      dir.IsDir (path x).dropLast ∨
        ∃ y ∈ l1, good y ∧ make y = some .dir ∧ path y = (path x).dropLast) :
    ∃ dir', l.foldlM (fun dir x => dir.put (path x) (make x)) dir = .ok dir' ∧
      ∀ x ∈ l, good x → ∀ node, make x = some node → dir'.lookup (path x) = some node := by
  induction l generalizing dir with
  | nil => exact ⟨dir, rfl, fun x hx => absurd hx List.not_mem_nil⟩
  | cons x l ih =>
    obtain ⟨dir1, h1, hx⟩ : ∃ dir1, dir.put (path x) (make x) = .ok dir1 ∧
        (good x → ∀ node, make x = some node → dir1.lookup (path x) = some node) := by
      cases hmake : make x with
      | none => exact ⟨dir, rfl, nofun⟩
      | some node =>
        by_cases hgood : good x
        · obtain ⟨hp, hnames, hnode⟩ := hfit x List.mem_cons_self hgood node hmake
          have hdir := (hparent [] x l rfl hgood (by rw [hmake]; nofun)).resolve_right
            fun ⟨y, hy, _⟩ => absurd hy List.not_mem_nil
          obtain ⟨dir1, h1, hput⟩ := exists_put hp hnames hdir hnode
          exact ⟨dir1, h1, fun _ node' hnode' => Option.some.inj hnode' ▸ hput⟩
        · obtain rfl := hbad x List.mem_cons_self hgood node hmake
          exact ⟨_, rfl, fun hgood' => absurd hgood' hgood⟩
    have hfit1 : ∀ y ∈ l, good y → ∀ node, make y = some node →
        path y ≠ [] ∧ (∀ n ∈ path y, IsName n) ∧ node.FitsOn (dir1.lookup (path y)) := by
      intro y hy hgood node hmake
      obtain ⟨hp, hnames, hnode⟩ := hfit y (List.mem_cons_of_mem x hy) hgood node hmake
      refine ⟨hp, hnames, ?_⟩
      rcases put_ok h1 (path y) with hkept | ⟨hpath, node', hnode', hlook, -⟩
      · exact hkept ▸ hnode
      · rw [hlook, hsame y (List.mem_cons_of_mem x hy) x List.mem_cons_self hpath node node' hmake hnode']
        exact node'.fitsOn_self
    have hparent1 : ∀ l1 y l2, l = l1 ++ y :: l2 → good y → make y ≠ none →
        dir1.IsDir (path y).dropLast ∨
          ∃ z ∈ l1, good z ∧ make z = some .dir ∧ path z = (path y).dropLast := by
      intro l1 y l2 hl hgood hmake
      rcases hparent (x :: l1) y l2 (by rw [hl]; rfl) hgood hmake with
        hdir | ⟨z, hz, hgoodz, hmakez, hpath⟩
      · exact Or.inl (hdir.imp id (lookup_put_of_dir h1))
      · rcases List.mem_cons.mp hz with rfl | hz
        · exact Or.inl (Or.inr (hpath ▸ hx hgoodz .dir hmakez))
        · exact Or.inr ⟨z, hz, hgoodz, hmakez, hpath⟩
    obtain ⟨dir', h', hrest⟩ := ih (fun y hy => hbad y (List.mem_cons_of_mem x hy))
      (fun y hy z hz => hsame y (List.mem_cons_of_mem x hy) z (List.mem_cons_of_mem x hz)) hfit1 hparent1
    refine ⟨dir', by rw [List.foldlM_cons, bind_eq_ok]; exact ⟨dir1, h1, h'⟩, fun y hy hgood node hmake => ?_⟩
    rcases List.mem_cons.mp hy with rfl | hy
    · rcases foldlM_put_ok h' (path y) with hkept | ⟨z, hz, hpath, node', hnode', hlook, -⟩
      · rw [hkept, hx hgood node hmake]
      · rw [hlook, hsame z (List.mem_cons_of_mem y hz) y List.mem_cons_self hpath node' node hnode' hmake]
    · exact hrest y hy hgood node hmake

end Directory

end DartSync
