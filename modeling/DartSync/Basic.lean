import Mathlib.Data.List.Nodup
import Mathlib.Data.List.TakeWhile
import Mathlib.Tactic.Common

/-!
# C strings, queues and failures

The values every module shares: NUL-terminated strings, the queue operations used as list
operations, and the ways in which the program stops. `getPathComponents` is the splitter of
`FileSystem.c`; on the path of a list of file names it gives the names back.
-/

namespace DartSync

/-! ## Failures -/

/-- Where the program stops: a failed `assert`, a dereferenced NULL, an access outside the memory
of an object. -/
inductive Abort
  /-- `assert(folderToAdd)` in `folder_add` -/
  | folderToAdd
  /-- `assert(fAlreadyContainsFolder)` in `folder_add` -/
  | fAlreadyContainsFolder
  /-- `assert(!fAlreadyContainsFolder)` in `folder_add` -/
  | notFAlreadyContainsFolder
  /-- `assert(found)` in `folder_add` -/
  | found
  /-- `assert(0)` in `folder_remove_file_at_path` -/
  | removeFileAtPath
  /-- `assert(0)` in `filetable_enqueue_work_for_filesystem` -/
  | entryNotInFiletable
  /-- `assert(0)` in `filetable_set_that_peer_has_file_chunk` -/
  | chunkDoesNotExist
  /-- `assert(num_peers_with_chunk)` in `filetableentry_get_job` -/
  | numPeersWithChunk
  /-- `assert(cf->path)` in `chunkyfile_write` -/
  | chunkyfilePath
  /-- `assert(0)` in `filesystem_deserialize_helper` -/
  | filesystemDeserialize
  /-- an assertion in `filetable_deserialize` -/
  | filetableDeserialize
  | nullPointer
  | outOfBounds
  /-- a variable read before it is set -/
  | uninitialized
  /-- not a failure: what is stored twice, or a NULL that is stored, is not followed -/
  | notFollowed
  /-- a loop that never advances -/
  | diverges
  deriving DecidableEq

universe u v in
/-- A computation in steps succeeds when its steps do. -/
theorem bind_eq_ok {ε : Type u} {α β : Type v} {x : Except ε α} {k : α → Except ε β} {b : β} :
    (x >>= k) = .ok b ↔ ∃ a, x = .ok a ∧ k a = .ok b := by
  cases x with
  | error e => exact ⟨nofun, fun ⟨_, h, _⟩ => nomatch h⟩
  | ok a => exact ⟨fun h => ⟨a, rfl, h⟩, fun ⟨_, h, hk⟩ => by cases h; exact hk⟩

universe u v in
/-- A computation in steps fails where the first of its steps does. -/
theorem bind_eq_error {ε : Type u} {α β : Type v} {x : Except ε α} {k : α → Except ε β} {e : ε} :
    (x >>= k) = .error e ↔ x = .error e ∨ ∃ a, x = .ok a ∧ k a = .error e := by
  cases x with
  | error e' =>
    constructor
    · exact fun h => Or.inl (congrArg Except.error (Except.error.inj h))
    · rintro (h | ⟨a, h, -⟩)
      · exact congrArg Except.error (Except.error.inj h)
      · cases h
  | ok a =>
    constructor
    · exact fun h => Or.inr ⟨a, rfl, h⟩
    · rintro (h | ⟨a', h, hk⟩)
      · cases h
      · cases h
        exact hk

/-- Steps that all succeed. -/
theorem mapM_eq_ok {α β : Type} {k : α → Except Abort β} {g : α → β} {l : List α}
    (h : ∀ x ∈ l, k x = .ok (g x)) : l.mapM k = .ok (l.map g) := by
  induction l with
  | nil => rfl
  | cons x l ih =>
    rw [List.mapM_cons, bind_eq_ok]
    refine ⟨g x, h x List.mem_cons_self, bind_eq_ok.mpr ⟨_, ih fun y hy =>
      h y (List.mem_cons_of_mem x hy), rfl⟩⟩

/-- The computation ends with the failure `a`. -/
def failsWith {α : Type*} (a : Abort) : Except Abort α → Bool
  | .error b => b = a
  | .ok _ => false

theorem failsWith_iff {α : Type*} {a : Abort} {x : Except Abort α} :
    failsWith a x = true ↔ x = .error a := by
  cases x with
  | error b => simp [failsWith]
  | ok _ => simp [failsWith]

/-! ## Arrays -/

/-- `elements[i]` -/
def readCell {α : Type*} (elements : List α) (i : ℤ) : Except Abort α :=
  if i < 0 then .error .outOfBounds
  else match elements[i.toNat]? with
    | none => .error .outOfBounds
    | some x => .ok x

/-- `elements[i] = x` -/
def writeCell {α : Type*} (elements : List α) (i : ℤ) (x : α) : Except Abort (List α) :=
  if 0 ≤ i ∧ i < elements.length then .ok (elements.set i.toNat x) else .error .outOfBounds

theorem readCell_eq {α : Type*} {elements : List α} {i : ℕ} {x : α} (h : elements[i]? = some x) :
    readCell elements i = .ok x := by
  unfold readCell
  rw [if_neg (by omega), Int.toNat_natCast, h]

theorem writeCell_eq {α : Type*} {elements : List α} {i : ℕ} {x : α} (h : i < elements.length) :
    writeCell elements i x = .ok (elements.set i x) :=
  if_pos ⟨by omega, by omega⟩

/-! ## Queues -/

/-- `queue_search`: the first element the predicate accepts. -/
def queueSearch {α : Type*} (q : List α) (sf : α → Bool) : Option α := q.find? sf

/-- `queue_remove`: the first element the predicate accepts, and the queue without it. -/
def queueRemove {α : Type*} (q : List α) (sf : α → Bool) : Option α × List α :=
  (q.find? sf, q.eraseP sf)

/-- `queue_swap` -/
def queueSwap {α : Type*} (q : List α) (i j : ℕ) : List α :=
  match q[i]?, q[j]? with
  | some x, some y => (q.set i y).set j x
  | _, _ => q

/-! ## Strings -/

/-- The bytes of a C string, its terminating NUL left out. -/
@[ext] structure CString where
  bytes : List UInt8
  noNul : 0 ∉ bytes
  deriving DecidableEq

namespace CString

/-- The string that starts a buffer: its bytes up to the first NUL. -/
def ofBytes (buffer : List UInt8) : CString where
  bytes := buffer.takeWhile (· ≠ 0)
  noNul h := by simpa using List.mem_takeWhile_imp h

/-- `strlen` -/
def length (s : CString) : ℕ := s.bytes.length

def empty : CString := ⟨[], List.not_mem_nil⟩

/-- The string `"/"`. -/
def slash : CString := ⟨[47], by decide⟩

instance : Append CString where
  append s t := ⟨s.bytes ++ t.bytes, fun h =>
    (List.mem_append.mp h).elim s.noNul t.noNul⟩

@[simp] theorem bytes_append (s t : CString) : (s ++ t).bytes = s.bytes ++ t.bytes := rfl

@[simp] theorem bytes_empty : empty.bytes = [] := rfl

@[simp] theorem bytes_slash : slash.bytes = [47] := rfl

theorem append_assoc (s t u : CString) : s ++ t ++ u = s ++ (t ++ u) :=
  CString.ext (List.append_assoc _ _ _)

/-- The bytes of a string that is followed by NUL or by nothing are read back as the string. -/
theorem ofBytes_append (s : CString) (rest : List UInt8) (h : rest = [] ∨ ∃ l, rest = 0 :: l) :
    ofBytes (s.bytes ++ rest) = s := by
  have hs : ∀ b ∈ s.bytes, (b ≠ 0) := fun b hb h0 => s.noNul (h0 ▸ hb)
  apply CString.ext
  show (s.bytes ++ rest).takeWhile _ = _
  rw [List.takeWhile_append_of_pos (by simpa using hs)]
  rcases h with rfl | ⟨l, rfl⟩ <;> simp

end CString

/-- `add_strings` -/
def addStrings (strings : List CString) : CString := strings.foldl (· ++ ·) .empty

/-! ## Paths -/

/-- What `readdir` delivers: a name is not empty and has no `'/'`. -/
structure IsName (n : CString) : Prop where
  ne_nil : n.bytes ≠ []
  noSlash : 47 ∉ n.bytes

instance : DecidablePred IsName := fun n =>
  decidable_of_iff (n.bytes ≠ [] ∧ 47 ∉ n.bytes) ⟨fun h => ⟨h.1, h.2⟩, fun h => ⟨h.1, h.2⟩⟩

/-- The path of `comps` below `root`, a `'/'` before each component. -/
def joinPath (root : CString) (comps : List CString) : CString :=
  comps.foldl (fun path n => addStrings [path, .slash, n]) root

@[simp] theorem joinPath_nil (root : CString) : joinPath root [] = root := rfl

theorem joinPath_cons (root n : CString) (comps : List CString) :
    joinPath root (n :: comps) = joinPath (addStrings [root, .slash, n]) comps := rfl

theorem joinPath_append_singleton (root n : CString) (comps : List CString) :
    joinPath root (comps ++ [n]) = addStrings [joinPath root comps, .slash, n] := by
  simp [joinPath]

theorem bytes_addStrings (path n : CString) :
    (addStrings [path, .slash, n]).bytes = path.bytes ++ 47 :: n.bytes := by
  simp [addStrings]

theorem bytes_joinPath (root : CString) (comps : List CString) :
    (joinPath root comps).bytes = root.bytes ++ comps.flatMap fun n => 47 :: n.bytes := by
  induction comps generalizing root with
  | nil => simp
  | cons n comps ih => rw [joinPath_cons, ih, bytes_addStrings]; simp

/-- The second loop of `get_path_components`, on the bytes of `path_copy` from `i` on. A string
that does not start with a separator never lets it advance, whatever the fuel. -/
def componentLoop : ℕ → Bool → List UInt8 → Option (List CString)
  | 0, _, _ => none
  | _ + 1, _, [] => some []
  | fuel + 1, prevWasNull, b :: rest =>
    if b = 0 then componentLoop fuel true rest
    else if prevWasNull then
      let component := CString.ofBytes (b :: rest)
      (componentLoop fuel prevWasNull ((b :: rest).drop component.length)).map (component :: ·)
    else componentLoop fuel prevWasNull (b :: rest)

/-- `get_path_components`; `none` when it does not return. -/
def getPathComponents (path : CString) : Option (List CString) :=
  componentLoop (path.length + 1) false (path.bytes.map fun b => if b = 47 then 0 else b)

/-- The loop reads back the names of a buffer in which each name follows a NUL. -/
theorem componentLoop_names (comps : List CString) (hc : ∀ n ∈ comps, n.bytes ≠ []) :
    ∀ (fuel : ℕ) (prevWasNull : Bool), (comps.flatMap fun n => 0 :: n.bytes).length < fuel →
      componentLoop fuel prevWasNull (comps.flatMap fun n => 0 :: n.bytes) = some comps := by
  induction comps with
  | nil =>
    intro fuel prevWasNull hf
    obtain ⟨fuel, rfl⟩ := Nat.exists_eq_add_one_of_ne_zero (Nat.ne_of_gt (Nat.zero_lt_of_lt hf))
    rfl
  | cons n comps ih =>
    intro fuel prevWasNull hf
    have hrest : comps.flatMap (fun n => 0 :: n.bytes) = [] ∨
        ∃ l, comps.flatMap (fun n => 0 :: n.bytes) = 0 :: l := by
      cases comps with
      | nil => exact Or.inl rfl
      | cons m comps => exact Or.inr ⟨_, rfl⟩
    have hread := CString.ofBytes_append n _ hrest
    have hdrop : (n.bytes ++ comps.flatMap fun n => 0 :: n.bytes).drop n.length =
        comps.flatMap fun n => 0 :: n.bytes := List.drop_left' rfl
    have hn : n.bytes ≠ [] := hc n List.mem_cons_self
    obtain ⟨b, bs, hb⟩ := List.exists_cons_of_ne_nil hn
    have hb0 : b ≠ 0 := fun h0 => n.noNul (by rw [hb, h0]; exact List.mem_cons_self)
    rw [List.flatMap_cons, List.cons_append, List.length_cons, List.length_append, hb,
      List.length_cons] at hf
    obtain ⟨fuel, rfl⟩ : ∃ k, fuel = k + 2 := ⟨fuel - 2, by omega⟩
    rw [List.flatMap_cons, List.cons_append, componentLoop, if_pos rfl]
    rw [hb, List.cons_append] at hread hdrop ⊢
    rw [componentLoop, if_neg hb0, if_pos rfl]
    show (componentLoop _ _ ((b :: _).drop (CString.ofBytes _).length)).map _ = _
    rw [hread, hdrop, ih (fun m hm => hc m (List.mem_cons_of_mem _ hm)) fuel true (by omega)]
    rfl

/-- **Splitting.** The path of a list of names splits into the names. -/
theorem getPathComponents_joinPath {comps : List CString} (hc : ∀ n ∈ comps, IsName n) :
    getPathComponents (joinPath .empty comps) = some comps := by
  have hmap : ((joinPath .empty comps).bytes.map fun b => if b = 47 then 0 else b) =
      comps.flatMap fun n => 0 :: n.bytes := by
    rw [bytes_joinPath, CString.bytes_empty, List.nil_append, List.map_flatMap]
    refine List.flatMap_congr fun n hn => ?_
    rw [List.map_cons, if_pos rfl]
    congr 1
    conv_rhs => rw [← List.map_id n.bytes]
    refine List.map_congr_left fun b hb => if_neg fun h => ?_
    exact (hc n hn).noSlash (h ▸ hb)
  unfold getPathComponents
  rw [hmap]
  refine componentLoop_names comps (fun n hn => (hc n hn).ne_nil) _ _ ?_
  rw [← hmap, List.length_map]
  exact Nat.lt_succ_self _

/-- Distinct lists of names have distinct paths. -/
theorem joinPath_injective {p q : List CString} (hp : ∀ n ∈ p, IsName n) (hq : ∀ n ∈ q, IsName n)
    (h : joinPath .empty p = joinPath .empty q) : p = q := by
  have := getPathComponents_joinPath hp
  rw [h, getPathComponents_joinPath hq] at this
  exact (Option.some.inj this).symm

end DartSync
