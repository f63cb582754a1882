import Mathlib.Data.List.Basic
import Mathlib.Logic.Function.Basic
import Mathlib.Tactic.Common

/-!
# Messages sorted by kind at both ends of a connection

The sender has a queue for each kind of message and takes messages out of these queues in any order;
the connection carries them in the order in which they were taken, and the receiver sorts them into
queues again. What is on its way of one kind is a queue (`inFlight_send`, `inFlight_of_take`), whatever
the ends do in between; nothing is said about the order of messages of different kinds.
-/

variable {κ μ : Type*}

/-- The queues of the sender, the connection and the queues of the receiver. -/
structure Lanes (kind : μ → κ) where
  outbox : κ → List μ
  wire : List μ
  inbox : κ → List μ
  kind_outbox : ∀ i, ∀ m ∈ outbox i, kind m = i
  kind_inbox : ∀ i, ∀ m ∈ inbox i, kind m = i

namespace Lanes

variable {kind : μ → κ} {l l' : Lanes kind} {i j : κ} {m : μ}

/-- Nothing on its way. -/
def empty (kind : μ → κ) : Lanes kind := ⟨fun _ => [], [], fun _ => [], nofun, nofun⟩

variable [DecidableEq κ]

/-- A message is put into the sender's queue of its kind. -/
def send (l : Lanes kind) (m : μ) : Lanes kind where
  outbox := Function.update l.outbox (kind m) (l.outbox (kind m) ++ [m])
  wire := l.wire
  inbox := l.inbox
  kind_outbox i x hx := by
    by_cases hi : i = kind m
    · subst hi
      rw [Function.update_self] at hx
      rcases List.mem_append.mp hx with hx | hx
      · exact l.kind_outbox _ x hx
      · rw [List.mem_singleton.mp hx]
    · rw [Function.update_of_ne hi] at hx
      exact l.kind_outbox i x hx
  kind_inbox := l.kind_inbox

/-- The first message of one of the sender's queues goes onto the connection. -/
def transmit (l : Lanes kind) (i : κ) : Lanes kind where
  outbox := Function.update l.outbox i (l.outbox i).tail
  wire := l.wire ++ (l.outbox i).head?.toList
  inbox := l.inbox
  kind_outbox j x hx := by
    by_cases hj : j = i
    · subst hj
      rw [Function.update_self] at hx
      exact l.kind_outbox j x (List.mem_of_mem_tail hx)
    · rw [Function.update_of_ne hj] at hx
      exact l.kind_outbox j x hx
  kind_inbox := l.kind_inbox

/-- The receiver sorts in the first message of the connection. -/
def deliver (l : Lanes kind) : Lanes kind :=
  match l.wire with
  | [] => l
  | m :: wire => { l with
      wire := wire
      inbox := Function.update l.inbox (kind m) (l.inbox (kind m) ++ [m])
      kind_inbox := fun i x hx => by
        by_cases hi : i = kind m
        · subst hi
          rw [Function.update_self] at hx
          rcases List.mem_append.mp hx with hx | hx
          · exact l.kind_inbox _ x hx
          · rw [List.mem_singleton.mp hx]
        · rw [Function.update_of_ne hi] at hx
          exact l.kind_inbox i x hx }

/-- One of the receiver's queues without its first message. -/
def drop (l : Lanes kind) (i : κ) : Lanes kind where
  outbox := l.outbox
  wire := l.wire
  inbox := Function.update l.inbox i (l.inbox i).tail
  kind_outbox := l.kind_outbox
  kind_inbox j x hx := by
    by_cases hj : j = i
    · subst hj
      rw [Function.update_self] at hx
      exact l.kind_inbox j x (List.mem_of_mem_tail hx)
    · rw [Function.update_of_ne hj] at hx
      exact l.kind_inbox j x hx

/-- The first message of one of the receiver's queues, and the queues without it. -/
def take (l : Lanes kind) (i : κ) : Option (μ × Lanes kind) :=
  (l.inbox i).head?.map fun m => (m, l.drop i)

/-- What is on its way of one kind, the oldest message first. -/
def inFlight (l : Lanes kind) (i : κ) : List μ :=
  l.inbox i ++ (l.wire.filter (fun m => kind m = i) ++ l.outbox i)

theorem inFlight_send (l : Lanes kind) (m : μ) (i : κ) :
    (l.send m).inFlight i = l.inFlight i ++ if kind m = i then [m] else [] := by
  unfold inFlight send
  dsimp only
  by_cases hi : kind m = i
  · subst hi
    rw [Function.update_self, if_pos rfl, List.append_assoc, List.append_assoc]
  · rw [Function.update_of_ne (Ne.symm hi), if_neg hi, List.append_nil]

theorem inFlight_send_of_kind (h : kind m = i) : (l.send m).inFlight i = l.inFlight i ++ [m] := by
  rw [inFlight_send, if_pos h]

theorem inFlight_send_of_ne (h : kind m ≠ i) : (l.send m).inFlight i = l.inFlight i := by
  rw [inFlight_send, if_neg h, List.append_nil]

/-- Messages are put into the sender's queues one after the other. -/
def sendAll (l : Lanes kind) (ms : List μ) : Lanes kind := ms.foldl send l

theorem inFlight_sendAll (l : Lanes kind) (ms : List μ) (i : κ) :
    (l.sendAll ms).inFlight i = l.inFlight i ++ ms.filter (fun m => kind m = i) := by
  unfold sendAll
  induction ms generalizing l with
  | nil => rw [List.foldl_nil, List.filter_nil, List.append_nil]
  | cons m ms ih =>
    rw [List.foldl_cons, ih, inFlight_send, List.append_assoc, List.filter_cons]
    simp only [decide_eq_true_eq]
    split_ifs <;> rfl

theorem inFlight_transmit (l : Lanes kind) (j i : κ) : (l.transmit j).inFlight i = l.inFlight i := by
  have hsplit : (l.outbox j).head?.toList ++ (l.outbox j).tail = l.outbox j := by
    cases l.outbox j <;> rfl
  have hkind : ∀ x ∈ (l.outbox j).head?.toList, kind x = j := fun x hx =>
    l.kind_outbox j x (by rw [← hsplit]; exact List.mem_append_left _ hx)
  unfold inFlight transmit
  dsimp only
  rw [List.filter_append, List.append_assoc]
  by_cases hi : i = j
  · subst hi
    have hall : (l.outbox i).head?.toList.filter (fun m => kind m = i) = (l.outbox i).head?.toList :=
      List.filter_eq_self.mpr fun x hx => decide_eq_true (hkind x hx)
    rw [Function.update_self, hall, hsplit]
  · have hnone : (l.outbox j).head?.toList.filter (fun m => kind m = i) = [] :=
      List.filter_eq_nil_iff.mpr fun x hx => by simp [hkind x hx, Ne.symm hi]
    rw [Function.update_of_ne hi, hnone, List.nil_append]

theorem inFlight_deliver (l : Lanes kind) (i : κ) : l.deliver.inFlight i = l.inFlight i := by
  unfold inFlight deliver
  cases hwire : l.wire with
  | nil => dsimp only; rw [hwire]
  | cons m wire =>
    dsimp only
    by_cases hi : kind m = i
    · subst hi
      rw [Function.update_self, List.filter_cons_of_pos (by simp), List.append_assoc]
      rfl
    · rw [Function.update_of_ne (Ne.symm hi), List.filter_cons_of_neg (by simpa using hi)]

theorem inFlight_drop_ne (hj : j ≠ i) : (l.drop i).inFlight j = l.inFlight j := by
  unfold inFlight drop
  dsimp only
  rw [Function.update_of_ne hj]

theorem take_eq_some (h : l.take i = some (m, l')) :
    l.inbox i = m :: (l.inbox i).tail ∧ l' = l.drop i := by
  obtain ⟨x, hx, heq⟩ := Option.map_eq_some_iff.mp h
  cases heq
  exact ⟨List.eq_cons_of_mem_head? hx, rfl⟩

/-- The message that is taken is the oldest one of its kind. -/
theorem inFlight_of_take (h : l.take i = some (m, l')) : l.inFlight i = m :: l'.inFlight i := by
  obtain ⟨hin, rfl⟩ := take_eq_some h
  unfold inFlight drop
  dsimp only
  rw [Function.update_self, ← List.cons_append, ← hin]

theorem inFlight_of_take_ne (h : l.take i = some (m, l')) (hj : j ≠ i) :
    l'.inFlight j = l.inFlight j := by
  obtain ⟨-, rfl⟩ := take_eq_some h
  exact inFlight_drop_ne hj

theorem kind_of_take (h : l.take i = some (m, l')) : kind m = i := by
  obtain ⟨hin, -⟩ := take_eq_some h
  exact l.kind_inbox i m (by rw [hin]; exact List.mem_cons_self)

end Lanes
