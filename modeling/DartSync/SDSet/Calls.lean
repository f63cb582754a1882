import DartSync.Library.Runs
import DartSync.SDSet

/-!
# Calls on a sparse-dense set

What a call is to do is said on a finite map, the list of the keys with their values (`mapCall`). In a
run in which no key is set twice between two calls of `sdset_clear` and no key beyond the blocks is
asked for, every call does that (`sdset_refines_map`), and the next call that breaks one of the two
rules does not.
-/

namespace DartSync

open KeyedList Runs SDSet

variable {α : Type}

inductive SDSetCall (α : Type)
  | set (key : ℕ) (value : α)
  | clear
  | isSet (key : ℕ)
  | get (key : ℕ)
  | length
  | getIndex (index : ℕ)

/-- What a call returns. -/
inductive SDSetAnswer (α : Type)
  | nothing
  | isSet (isSet : Bool)
  | value (value : Option α)
  | length (length : ℕ)

/-- The map with a key set. -/
def mapSet (m : List (ℕ × α)) (key : ℕ) (value : α) : List (ℕ × α) :=
  if key ∈ m.map Prod.fst then replaceKey Prod.fst key (key, value) m else m ++ [(key, value)]

/-- What a call is to do. -/
def mapCall (m : List (ℕ × α)) : SDSetCall α → SDSetAnswer α × List (ℕ × α)
  | .set key value => (.nothing, mapSet m key value)
  | .clear => (.nothing, [])
  | .isSet key => (.isSet (decide (key ∈ m.map Prod.fst)), m)
  | .get key => (.value ((findKey Prod.fst key m).map Prod.snd), m)
  | .length => (.length m.length, m)
  | .getIndex index => (.value (m[index]?.map Prod.snd), m)

/-- What the code does. -/
def sdsetCall (fresh : SDSetMalloc α) (set : SDSet α) :
    SDSetCall α → Except Abort (SDSetAnswer α × SDSet α)
  | .set key value => (sdsetSet fresh set key value).map (.nothing, ·)
  | .clear => .ok (.nothing, set.sdsetClear)
  | .isSet key => (set.sdsetIsSet key).map fun isSet => (.isSet isSet, set)
  | .get key => (set.sdsetGet key).map fun value => (.value value, set)
  | .length => .ok (.length set.sdsetLength, set)
  | .getIndex index => (set.sdsetGetIndex index).map fun value => (.value value, set)

/-- `sdset_length` is the number of keys, and `sdset_get_index` over `0`, …, `length - 1` gives the value
of each key once. -/
structure Enumerates (set : SDSet α) (m : List (ℕ × α)) : Prop where
  nodup : (m.map Prod.fst).Nodup
  length : set.sdsetLength = m.length
  values : ∃ values, (List.range set.sdsetLength).mapM set.sdsetGetIndex = .ok values ∧
    values.Perm (m.map fun x => some x.2)

/-- The call stays inside the blocks, returns what it is to return, and the set then holds the map. -/
def IsCorrect (fresh : SDSetMalloc α) (set : SDSet α) (m : List (ℕ × α)) (call : SDSetCall α) : Prop :=
  ∃ set', sdsetCall fresh set call = .ok ((mapCall m call).1, set') ∧
    Enumerates set' (mapCall m call).2

/-- A key is set that is not set yet and for which an `int` can hold the space; a key is asked for that
lies inside the blocks. -/
def IsDisciplined (set : SDSet α) (m : List (ℕ × α)) : SDSetCall α → Prop
  | .set key _ => key ∉ m.map Prod.fst ∧ key < 1342177280
  | .isSet key => key < set.space
  | .get key => key < set.space
  | _ => True

/-- A set in use, with the map that it stands for. -/
structure SDSetRun (α : Type) where
  set : SDSet α
  map : List (ℕ × α)

/-- A call, with what `realloc` finds during it. -/
def SDSetRun.step (s : SDSetRun α) (call : SDSetCall α × SDSetMalloc α) : Except Abort (SDSetRun α) := do
  let (_, set) ← sdsetCall call.2 s.set call.1
  return ⟨set, (mapCall s.map call.1).2⟩

def SDSetRun.Allows (s : SDSetRun α) (call : SDSetCall α × SDSetMalloc α) : Prop :=
  IsDisciplined s.set s.map call.1

variable {set set' : SDSet α} {m : List (ℕ × α)} {call : SDSetCall α} {fresh : SDSetMalloc α}

theorem enumerates_of_represents (h : set.Represents m) : Enumerates set m := by
  have hlist : ((List.range m.length).map fun i => m[i]?.map Prod.snd) = m.map fun x => some x.2 := by
    apply List.ext_getElem?
    intro i
    rw [List.getElem?_map, List.getElem?_map]
    by_cases hi : i < m.length
    · rw [List.getElem?_range hi, List.getElem?_eq_getElem hi, Option.map_some, Option.map_some,
        List.getElem?_eq_getElem hi, Option.map_some]
    · rw [List.getElem?_eq_none (by rw [List.length_range]; omega), List.getElem?_eq_none (by omega)]
      rfl
  refine ⟨h.nodup, h.size_eq, m.map fun x => some x.2, ?_, List.Perm.refl _⟩
  rw [sdsetLength, h.size_eq, ← hlist]
  exact mapM_eq_ok fun i _ => h.sdsetGetIndex i

/-- What one disciplined call does. -/
theorem represents_sdsetCall (h : set.Represents m) (hcall : IsDisciplined set m call) :
    ∃ set', sdsetCall fresh set call = .ok ((mapCall m call).1, set') ∧
      set'.Represents (mapCall m call).2 := by
  cases call with
  | set key value =>
    obtain ⟨set', hset, h'⟩ := h.sdsetSet fresh value hcall.2 hcall.1
    refine ⟨set', by rw [sdsetCall, hset]; rfl, ?_⟩
    · show set'.Represents (mapSet m key value)
      unfold mapSet
      rwa [if_neg hcall.1]
  | clear => exact ⟨_, rfl, h.sdsetClear⟩
  | isSet key => exact ⟨set, by rw [sdsetCall, h.sdsetIsSet hcall]; rfl, h⟩
  | get key => exact ⟨set, by rw [sdsetCall, h.sdsetGet hcall]; rfl, h⟩
  | length => exact ⟨set, by rw [sdsetCall, sdsetLength, h.size_eq]; rfl, h⟩
  | getIndex index => exact ⟨set, by rw [sdsetCall, h.sdsetGetIndex]; rfl, h⟩

/-- Setting a key again counts it again. -/
theorem isDisciplined_of_isCorrect (h : set.Represents m) (hcall : IsCorrect fresh set m call) :
    IsDisciplined set m call := by
  obtain ⟨set', hok, henum⟩ := hcall
  cases call with
  | set key value =>
    rw [sdsetCall] at hok
    cases hset : sdsetSet fresh set key value with
    | error a => rw [hset] at hok; cases hok
    | ok set1 =>
      rw [hset] at hok
      cases hok
      obtain ⟨hsize, hlt⟩ := h.of_sdsetSet hset
      refine ⟨fun hmem => ?_, hlt⟩
      have hlength : set'.size = (mapSet m key value).length := henum.length
      have hkeys : (replaceKey Prod.fst key (key, value) m).map Prod.fst = m.map Prod.fst :=
        map_key_replaceKey rfl
      have hsame := congrArg List.length hkeys
      rw [List.length_map, List.length_map] at hsame
      rw [mapSet, if_pos hmem, hsize, hsame] at hlength
      omega
  | isSet key =>
    by_contra hkey
    rw [sdsetCall, h.sdsetIsSet_error (not_lt.mp hkey)] at hok
    cases hok
  | get key =>
    by_contra hkey
    rw [sdsetCall, h.sdsetGet_error (not_lt.mp hkey)] at hok
    cases hok
  | clear | length | getIndex index => trivial

theorem represents_step {s t : SDSetRun α} {call : SDSetCall α × SDSetMalloc α}
    (h : s.set.Represents s.map) (hcall : s.Allows call) (hstep : s.step call = .ok t) :
    t.set.Represents t.map := by
  obtain ⟨set', hok, h'⟩ : ∃ set', sdsetCall call.2 s.set call.1 = .ok ((mapCall s.map call.1).1, set') ∧
      set'.Represents (mapCall s.map call.1).2 := represents_sdsetCall h hcall
  unfold SDSetRun.step at hstep
  rw [hok] at hstep
  cases hstep
  exact h'

/-- **Sparse-dense sets.** After every run of disciplined calls from `sdset_new`, whatever the memory
holds, the set enumerates the map, and a call is correct exactly if it is disciplined. -/
theorem sdset_refines_map (fresh : SDSetMalloc α) (calls : List (SDSetCall α × SDSetMalloc α))
    (s : SDSetRun α) (h : Run SDSetRun.step SDSetRun.Allows ⟨sdsetNew fresh, []⟩ calls s) :
    Enumerates s.set s.map ∧ ∀ fresh call, IsCorrect fresh s.set s.map call ↔
      IsDisciplined s.set s.map call := by
  have hs : s.set.Represents s.map := h.invariant (I := fun s => s.set.Represents s.map)
    (fun _ _ _ hs hcall hstep => represents_step hs hcall hstep) (represents_sdsetNew fresh)
  refine ⟨enumerates_of_represents hs, fun fresh call => ⟨isDisciplined_of_isCorrect hs, fun hcall => ?_⟩⟩
  obtain ⟨set', hok, h'⟩ : ∃ set', sdsetCall fresh s.set call = .ok ((mapCall s.map call).1, set') ∧
      set'.Represents (mapCall s.map call).2 := represents_sdsetCall hs hcall
  exact ⟨set', hok, enumerates_of_represents h'⟩

/-! ## Examples -/

/-- A test for the rules. -/
def disciplinedTest (s : SDSetRun α) : SDSetCall α × SDSetMalloc α → Bool
  | (.set key _, _) => decide (key ∉ s.map.map Prod.fst ∧ key < 1342177280)
  | (.isSet key, _) => decide (key < s.set.space)
  | (.get key, _) => decide (key < s.set.space)
  | _ => true

theorem allows_of_disciplinedTest (s : SDSetRun α) (call : SDSetCall α × SDSetMalloc α)
    (h : disciplinedTest s call = true) : s.Allows call := by
  obtain ⟨call, fresh⟩ := call
  unfold SDSetRun.Allows
  cases call with
  | set key value => exact of_decide_eq_true (p := _ ∧ _) h
  | isSet key => exact of_decide_eq_true (p := key < s.set.space) h
  | get key => exact of_decide_eq_true (p := key < s.set.space) h
  | clear | length | getIndex index => trivial

namespace SDSetExample

/-- Memory with arbitrary contents. -/
def memory : SDSetMalloc ℕ where
  dense _ _ := 4
  sparse _ _ := 0
  values _ _ := 77

/-- One of the keys lies beyond the first blocks; the key 4 is set again after the set was cleared. -/
def run : List (SDSetCall ℕ × SDSetMalloc ℕ) :=
  [SDSetCall.set 4 1, .set 20 2, .isSet 30, .get 4, .clear, .set 4 5].map (·, memory)

end SDSetExample

theorem sdset_refines_map_grown : ∃ s : SDSetRun ℕ,
    Run SDSetRun.step SDSetRun.Allows ⟨sdsetNew SDSetExample.memory, []⟩ SDSetExample.run s ∧
    s.map = [(4, 5)] ∧ s.set.space = 40 ∧ Enumerates s.set s.map ∧
    ∀ fresh call, IsCorrect fresh s.set s.map call ↔ IsDisciplined s.set s.map call := by
  have hrun : (runIf SDSetRun.step disciplinedTest ⟨sdsetNew SDSetExample.memory, []⟩
      SDSetExample.run).any (fun s => decide (s.map = [(4, 5)] ∧ s.set.space = 40)) = true := by
    decide +kernel
  obtain ⟨s, hs, hend⟩ := (Option.any_eq_true _ _).mp hrun
  obtain ⟨hmap, hspace⟩ := of_decide_eq_true hend
  have hs := run_of_runIf allows_of_disciplinedTest hs
  exact ⟨s, hs, hmap, hspace, sdset_refines_map _ _ s hs⟩

/-- A key set twice counts twice. -/
theorem not_isCorrect_setTwice : ∃ s : SDSetRun ℕ,
    Run SDSetRun.step (fun _ _ => True) ⟨sdsetNew SDSetExample.memory, []⟩
      [(.set 4 1, SDSetExample.memory)] s ∧
    ¬ IsCorrect SDSetExample.memory s.set s.map (.set 4 2) := by
  have hkey : 4 < inititialSize * 2 ^ 27 := by decide
  obtain ⟨set, hset, h⟩ := (represents_sdsetNew SDSetExample.memory).sdsetSet
    SDSetExample.memory 1 hkey List.not_mem_nil
  refine ⟨⟨set, [(4, 1)]⟩, .cons trivial ?_ (.nil _), fun hcall => ?_⟩
  · show (sdsetCall _ _ _ >>= _) = _
    rw [sdsetCall, hset]
    rfl
  · exact (isDisciplined_of_isCorrect h hcall).1 (by decide)

end DartSync
