import DartSync.Library.Runs
import DartSync.Tracker
import Mathlib.Data.Finset.Card

/-!
# The peer table as a set

`addPeerToTable` fills the first free slot, `removePeerFromTable` frees a slot anywhere, and
`containsPeer` reads as many slots as there are entries. These fit together as long as the entries
are at the front, that is when peers leave in the opposite order to the one they came in.
-/

namespace DartSync

open Runs

variable {peerTable : PeerTable} {peerID : ℤ} {slots stack : List ℤ} {n k : ℕ}

/-! ## Reads and return values -/

/-- The loop of `containsPeer`, with `n` slots left to read. -/
def containsPeerFrom (peerID : ℤ) : ℕ → List ℤ → Except Abort Bool
  | 0, _ => .ok false
  | _ + 1, [] => .error .outOfBounds
  | n + 1, slot :: slots => if slot = peerID then .ok true else containsPeerFrom peerID n slots

/-- `containsPeer`, with the bounds of the array. -/
def containsPeerInBounds (peerTable : PeerTable) (peerID : ℤ) : Except Abort Bool :=
  if peerID < 1 then .ok false
  else containsPeerFrom peerID peerTable.numberOfEntries.toNat peerTable.peerIDs

/-- What the loop of `addPeerToTable` returns, or what it returns after doubling the slots. -/
def addPeerReturn (peerID : ℤ) : List ℤ → ℤ
  | [] => 1
  | slot :: slots =>
    if slot = peerID then -1
    else if slot = -1 then 1
    else addPeerReturn peerID slots

theorem containsPeerFrom_ok {b : Bool} (h : containsPeerFrom peerID n slots = .ok b) :
    (slots.take n).contains peerID = b := by
  induction n generalizing slots with
  | zero =>
    cases h
    rfl
  | succ n ih =>
    cases slots with
    | nil => cases h
    | cons slot slots =>
      rw [containsPeerFrom] at h
      split_ifs at h with hslot
      · cases h
        simp [hslot]
      · rw [← ih h]
        simp [Ne.symm hslot]

/-- Within the bounds `containsPeer` is what it is without them. -/
theorem containsPeer_of_inBounds {b : Bool} (h : containsPeerInBounds peerTable peerID = .ok b) :
    containsPeer peerTable peerID = b := by
  unfold containsPeerInBounds at h
  unfold containsPeer
  split_ifs at h with hid
  · cases h
    simp [hid]
  · rw [containsPeerFrom_ok h]
    simp [not_lt.mp hid]

theorem containsPeerFrom_of_le (h : n ≤ slots.length) :
    containsPeerFrom peerID n slots = .ok ((slots.take n).contains peerID) := by
  induction n generalizing slots with
  | zero => rfl
  | succ n ih =>
    cases slots with
    | nil => simp at h
    | cons slot slots =>
      rw [containsPeerFrom, ih (by simpa using h)]
      by_cases hslot : slot = peerID
      · simp [hslot]
      · simp [hslot, Ne.symm hslot]

/-! ## Calls -/

/-- A call of `addPeerToTable` or of `removePeerFromTable`. -/
inductive PeerCall
  | add (peerID : ℤ)
  | remove (peerID : ℤ)
  deriving DecidableEq

def PeerCall.id : PeerCall → ℤ
  | .add peerID => peerID
  | .remove peerID => peerID

/-- A peer table, and the ids added to it and not removed since. -/
structure PeerHistory where
  peerTable : PeerTable
  present : Finset ℤ

def PeerHistory.step (s : PeerHistory) : PeerCall → Except Abort PeerHistory
  | .add peerID => .ok ⟨addPeerToTable s.peerTable peerID, insert peerID s.present⟩
  | .remove peerID => do
    let peerTable ← removePeerFromTable s.peerTable peerID
    return ⟨peerTable, s.present.erase peerID⟩

def PeerHistory.initial : PeerHistory := ⟨createPeerTable, ∅⟩

/-- The table is the set of the ids present: `containsPeer` finds them and no others without leaving
the array, each has one slot, and they are as many as the entries. -/
structure PeerHistory.IsSet (s : PeerHistory) : Prop where
  contains : ∀ id, 1 ≤ id →
    containsPeerInBounds s.peerTable id = .ok (decide (id ∈ s.present))
  once : ∀ id ∈ s.present, s.peerTable.peerIDs.count id = 1
  entries : s.peerTable.numberOfEntries = s.present.card

/-- The call leaves the table unchanged if it returns -1. A call of `removePeerFromTable` that would
return -1 has left the array before. -/
def PeerHistory.FailsCleanly (s : PeerHistory) : PeerCall → Prop
  | .add peerID => addPeerReturn peerID s.peerTable.peerIDs = -1 →
      addPeerToTable s.peerTable peerID = s.peerTable
  | .remove _ => True

/-- The table is a set before, between and after the calls, and every call that fails does so
cleanly. -/
def PeerHistory.StaysSet : PeerHistory → List PeerCall → Prop
  | s, [] => s.IsSet
  | s, call :: calls => s.IsSet ∧ s.FailsCleanly call ∧ ∃ t, s.step call = .ok t ∧ t.StaysSet calls

/-- Only absent ids are added, and only the id added last is removed. -/
def IsStackLike : List ℤ → List PeerCall → Prop
  | _, [] => True
  | stack, .add peerID :: calls => peerID ∉ stack ∧ IsStackLike (peerID :: stack) calls
  | stack, .remove peerID :: calls => stack.head? = some peerID ∧ IsStackLike stack.tail calls

/-! ## Tables whose entries are at the front -/

/-- The ids present, in the order of the stack, are in the first slots, and the others are free. -/
structure PeerHistory.Packed (s : PeerHistory) (stack : List ℤ) : Prop where
  slots : ∃ k, s.peerTable.peerIDs = stack.reverse ++ List.replicate k (-1)
  entries : s.peerTable.numberOfEntries = stack.length
  present : s.present = stack.toFinset
  nodup : stack.Nodup
  positive : ∀ id ∈ stack, 1 ≤ id

theorem packed_initial : PeerHistory.initial.Packed [] where
  slots := ⟨16, rfl⟩
  entries := rfl
  present := rfl
  nodup := List.nodup_nil
  positive _ h := absurd h List.not_mem_nil

variable {s t : PeerHistory} {call : PeerCall} {calls : List PeerCall}

theorem PeerHistory.Packed.mem_present {id : ℤ} (hs : s.Packed stack) :
    id ∈ s.present ↔ id ∈ stack := by
  rw [hs.present, List.mem_toFinset]

theorem PeerHistory.Packed.isSet (hs : s.Packed stack) : s.IsSet where
  contains id hid := by
    obtain ⟨k, hk⟩ := hs.slots
    unfold containsPeerInBounds
    rw [if_neg (not_lt.mpr hid), hs.entries, hk, Int.toNat_natCast,
      containsPeerFrom_of_le (by simp), List.take_left' (by simp)]
    simp [hs.present]
  once id hid := by
    obtain ⟨k, hk⟩ := hs.slots
    have hmem := hs.mem_present.mp hid
    have hpos := hs.positive id hmem
    rw [hk, List.count_append, List.count_reverse, List.count_eq_one_of_mem hs.nodup hmem,
      List.count_eq_zero.mpr]
    intro hfree
    have := List.eq_of_mem_replicate hfree
    omega
  entries := by rw [hs.entries, hs.present, List.toFinset_card_of_nodup hs.nodup]

theorem addPeerToSlot_append (hnot : peerID ∉ slots) (hfree : -1 ∉ slots) (rest : List ℤ) :
    addPeerToSlot peerID (slots ++ rest) = (addPeerToSlot peerID rest).map (slots ++ ·) := by
  induction slots with
  | nil => simp
  | cons slot slots ih =>
    rw [List.mem_cons, not_or] at hnot hfree
    rw [List.cons_append, addPeerToSlot, if_neg (Ne.symm hnot.1), if_neg (Ne.symm hfree.1),
      ih hnot.2 hfree.2, Option.map_map]
    rfl

theorem PeerHistory.Packed.free_not_mem (hs : s.Packed stack) : -1 ∉ stack := by
  intro h
  have := hs.positive _ h
  omega

/-- An absent peer goes into the slot after the others. -/
theorem PeerHistory.Packed.add (hs : s.Packed stack) (hid : 1 ≤ peerID) (hnot : peerID ∉ stack) :
    PeerHistory.Packed ⟨addPeerToTable s.peerTable peerID, insert peerID s.present⟩
      (peerID :: stack) where
  slots := by
    obtain ⟨k, hk⟩ := hs.slots
    have hadd := addPeerToSlot_append (by rwa [List.mem_reverse])
      (by rw [List.mem_reverse]; exact hs.free_not_mem) (List.replicate k (-1))
    unfold addPeerToTable
    rw [hk, hadd]
    cases k with
    | zero => exact ⟨stack.reverse.length - 1, by simp [addPeerToSlot]⟩
    | succ k =>
      refine ⟨k, ?_⟩
      rw [List.replicate_succ, addPeerToSlot, if_neg (by omega), if_pos rfl]
      simp
  entries := by
    show s.peerTable.numberOfEntries + 1 = _
    rw [hs.entries, List.length_cons, Nat.cast_add_one]
  present := by
    show insert peerID s.present = _
    rw [hs.present, List.toFinset_cons]
  nodup := List.nodup_cons.mpr ⟨hnot, hs.nodup⟩
  positive id h := by
    rcases List.mem_cons.mp h with rfl | h
    exacts [hid, hs.positive id h]

theorem addPeerReturn_append (hnot : peerID ∉ slots) (hfree : -1 ∉ slots) (rest : List ℤ) :
    addPeerReturn peerID (slots ++ rest) = addPeerReturn peerID rest := by
  induction slots with
  | nil => rfl
  | cons slot slots ih =>
    rw [List.mem_cons, not_or] at hnot hfree
    rw [List.cons_append, addPeerReturn, if_neg (Ne.symm hnot.1), if_neg (Ne.symm hfree.1),
      ih hnot.2 hfree.2]

theorem PeerHistory.Packed.addPeerReturn_eq (hs : s.Packed stack) (hid : 1 ≤ peerID)
    (hnot : peerID ∉ stack) : addPeerReturn peerID s.peerTable.peerIDs = 1 := by
  obtain ⟨k, hk⟩ := hs.slots
  rw [hk, addPeerReturn_append (by rwa [List.mem_reverse])
    (by rw [List.mem_reverse]; exact hs.free_not_mem)]
  cases k with
  | zero => rfl
  | succ k => rw [List.replicate_succ, addPeerReturn, if_neg (by omega), if_pos rfl]

theorem findIdx?_append_of_notMem (hnot : peerID ∉ slots) (rest : List ℤ) :
    (slots ++ peerID :: rest).findIdx? (fun slot => slot = peerID) = some slots.length := by
  rw [List.findIdx?_append, List.findIdx?_eq_none_iff.mpr, List.findIdx?_cons]
  · simp
  · intro x hx
    simp only [decide_eq_false_iff_not]
    exact fun h => hnot (h ▸ hx)

/-- The peer that came last frees the last slot in use. -/
theorem PeerHistory.Packed.remove (hs : s.Packed (peerID :: stack)) :
    ∃ t, s.step (.remove peerID) = .ok t ∧ t.Packed stack := by
  obtain ⟨k, hk⟩ := hs.slots
  have hnd := List.nodup_cons.mp hs.nodup
  rw [List.reverse_cons, List.append_assoc, List.singleton_append] at hk
  have hnot : peerID ∉ stack.reverse := by rw [List.mem_reverse]; exact hnd.1
  have hidx := findIdx?_append_of_notMem hnot (List.replicate k (-1))
  have hremove : removePeerFromTable s.peerTable peerID = .ok ⟨s.peerTable.numberOfEntries - 1,
      s.peerTable.peerIDs.set stack.reverse.length (-1)⟩ := by
    unfold removePeerFromTable
    rw [hk, hidx]
  refine ⟨_, bind_eq_ok.mpr ⟨_, hremove, rfl⟩, ⟨⟨k + 1, ?_⟩, ?_, ?_, hnd.2, ?_⟩⟩
  · show s.peerTable.peerIDs.set _ _ = _
    rw [hk, List.set_append_right _ _ (le_refl _), Nat.sub_self]
    rfl
  · show s.peerTable.numberOfEntries - 1 = _
    rw [hs.entries, List.length_cons]
    omega
  · show s.present.erase peerID = _
    rw [hs.present, List.toFinset_cons, Finset.erase_insert]
    rw [List.mem_toFinset]
    exact hnd.1
  · exact fun id h => hs.positive id (List.mem_cons_of_mem _ h)

/-! ## Other calls -/

/-- A second `addPeerToTable` of a peer counts it again. -/
theorem PeerHistory.Packed.not_isSet_add (hs : s.Packed stack) (hmem : peerID ∈ stack) :
    ¬ PeerHistory.IsSet ⟨addPeerToTable s.peerTable peerID, insert peerID s.present⟩ := by
  intro h
  have hentries : s.peerTable.numberOfEntries + 1 = (insert peerID s.present).card := h.entries
  rw [Finset.insert_eq_of_mem (hs.mem_present.mpr hmem), ← hs.isSet.entries] at hentries
  omega

theorem removePeerFromTable_ok {pt : PeerTable} (h : removePeerFromTable peerTable peerID = .ok pt) :
    ∃ i, peerTable.peerIDs.findIdx? (fun slot => slot = peerID) = some i ∧
      pt = ⟨peerTable.numberOfEntries - 1, peerTable.peerIDs.set i (-1)⟩ := by
  unfold removePeerFromTable at h
  split at h
  · rename_i i hi
    exact ⟨i, hi, (Except.ok.inj h).symm⟩
  · cases h

/-- After a peer other than the last has left, the last is no longer found. -/
theorem PeerHistory.Packed.not_isSet_remove {last : ℤ} (hs : s.Packed (last :: stack))
    (hne : peerID ≠ last) (h : s.step (.remove peerID) = .ok t) : ¬ t.IsSet := by
  intro ht
  obtain ⟨k, hk⟩ := hs.slots
  have hpos := hs.positive last List.mem_cons_self
  have hnd := List.nodup_cons.mp hs.nodup
  obtain ⟨pt, hpt, h⟩ := bind_eq_ok.mp h
  obtain ⟨i, -, rfl⟩ := removePeerFromTable_ok hpt
  cases h
  have hpresent : last ∈ s.present.erase peerID :=
    Finset.mem_erase.mpr ⟨hne.symm, hs.mem_present.mpr List.mem_cons_self⟩
  have hfound := containsPeer_of_inBounds (ht.contains last hpos)
  rw [decide_eq_true hpresent] at hfound
  unfold containsPeer at hfound
  have hn : (s.peerTable.numberOfEntries - 1).toNat = stack.reverse.length := by
    rw [hs.entries, List.length_cons, List.length_reverse]
    omega
  dsimp only at hfound
  rw [hn, List.take_set, hk, List.reverse_cons, List.append_assoc, List.take_left' rfl,
    Bool.and_eq_true, List.contains_iff_mem] at hfound
  rcases List.mem_or_eq_of_mem_set hfound.2 with hmem | hmem
  · exact hnd.1 (List.mem_reverse.mp hmem)
  · omega

theorem step_remove_nil (hs : s.Packed []) (h : s.step (.remove peerID) = .ok t)
    (hid : 1 ≤ peerID) : False := by
  obtain ⟨k, hk⟩ := hs.slots
  obtain ⟨pt, hpt, -⟩ := bind_eq_ok.mp h
  obtain ⟨i, hi, -⟩ := removePeerFromTable_ok hpt
  obtain ⟨hlt, hslot, -⟩ := List.findIdx?_eq_some_iff_getElem.mp hi
  have hmem := List.getElem_mem hlt
  rw [of_decide_eq_true hslot, hk] at hmem
  have := List.eq_of_mem_replicate (by simpa using hmem : peerID ∈ List.replicate k (-1))
  omega

/-! ## Sequences of calls -/

theorem PeerHistory.StaysSet.start (h : s.StaysSet calls) : s.IsSet := by
  cases calls with
  | nil => exact h
  | cons => exact h.1

theorem PeerHistory.StaysSet.isSet {guard : PeerHistory → PeerCall → Prop} (h : s.StaysSet calls)
    (hrun : Run PeerHistory.step guard s calls t) : t.IsSet := by
  induction hrun with
  | nil => exact h
  | cons _ hstep _ ih =>
    obtain ⟨-, -, u, hu, hstay⟩ := h
    cases hu.symm.trans hstep
    exact ih hstay

theorem PeerHistory.Packed.staysSet_iff (hs : s.Packed stack) (hids : ∀ call ∈ calls, 1 ≤ call.id) :
    s.StaysSet calls ↔ IsStackLike stack calls := by
  induction calls generalizing s stack with
  | nil => exact iff_of_true hs.isSet trivial
  | cons call calls ih =>
    have hid : 1 ≤ call.id := hids call List.mem_cons_self
    have hids' : ∀ c ∈ calls, 1 ≤ c.id := fun c hc => hids c (List.mem_cons_of_mem call hc)
    cases call with
    | add peerID =>
      have hid : 1 ≤ peerID := hid
      constructor
      · rintro ⟨-, -, t, ht, hstay⟩
        cases ht
        have hnot : peerID ∉ stack := fun hmem => hs.not_isSet_add hmem hstay.start
        exact ⟨hnot, (ih (hs.add hid hnot) hids').mp hstay⟩
      · rintro ⟨hnot, hlike⟩
        refine ⟨hs.isSet, fun hfail => ?_, _, rfl, (ih (hs.add hid hnot) hids').mpr hlike⟩
        rw [hs.addPeerReturn_eq hid hnot] at hfail
        cases hfail
    | remove peerID =>
      cases stack with
      | nil =>
        refine iff_of_false ?_ fun h => nomatch h.1
        rintro ⟨-, -, t, ht, -⟩
        exact step_remove_nil hs ht hid
      | cons last stack =>
        constructor
        · rintro ⟨-, -, t, ht, hstay⟩
          obtain rfl : peerID = last :=
            by_contra fun hne => hs.not_isSet_remove hne ht hstay.start
          obtain ⟨u, hu, hpacked⟩ := hs.remove
          cases hu.symm.trans ht
          exact ⟨rfl, (ih hpacked hids').mp hstay⟩
        · rintro ⟨hlast, hlike⟩
          obtain rfl := Option.some.inj hlast
          obtain ⟨t, ht, hpacked⟩ := hs.remove
          exact ⟨hs.isSet, trivial, t, ht, (ih hpacked hids').mpr hlike⟩

/-- **Peer tables.** The table is a set throughout exactly when no peer is added twice and peers are
removed in the opposite order to the one they were added in. -/
theorem staysSet_iff_isStackLike (hids : ∀ call ∈ calls, 1 ≤ call.id) :
    PeerHistory.initial.StaysSet calls ↔ IsStackLike [] calls :=
  packed_initial.staysSet_iff hids

theorem staysSet_after_two : PeerHistory.initial.StaysSet [.add 1, .add 2, .remove 2, .remove 1] :=
  (staysSet_iff_isStackLike (by decide)).mpr ⟨by decide, by decide, rfl, rfl, trivial⟩

/-- Peers 1 and 2 come and peer 1 leaves: peer 2 has a slot but is not found. -/
theorem peer_not_found_after_remove :
    ∃ s, Run PeerHistory.step (fun _ call => 1 ≤ call.id) .initial
        [.add 1, .add 2, .remove 1] s ∧
      2 ∈ s.present ∧ 2 ∈ s.peerTable.peerIDs ∧ containsPeer s.peerTable 2 = false ∧
      ¬ PeerHistory.initial.StaysSet [.add 1, .add 2, .remove 1] := by
  have hrun : (runIf PeerHistory.step (fun _ call => decide (1 ≤ call.id)) .initial
      [.add 1, .add 2, .remove 1]).any (fun s => decide (2 ∈ s.present) &&
        decide (2 ∈ s.peerTable.peerIDs) && !containsPeer s.peerTable 2) = true := by decide +kernel
  obtain ⟨s, hs, htest⟩ := (Option.any_eq_true _ _).mp hrun
  rw [Bool.and_eq_true, Bool.and_eq_true, decide_eq_true_eq, decide_eq_true_eq,
    Bool.not_eq_true'] at htest
  obtain ⟨⟨hpresent, hslot⟩, hnot⟩ := htest
  have hs : Run PeerHistory.step (fun _ call => 1 ≤ call.id) .initial _ s :=
    run_of_runIf (fun _ _ => of_decide_eq_true) hs
  refine ⟨s, hs, hpresent, hslot, hnot, fun hstay => ?_⟩
  have hfound := containsPeer_of_inBounds ((hstay.isSet hs).contains 2 (by decide))
  rw [hnot, decide_eq_true hpresent] at hfound
  cases hfound

end DartSync
