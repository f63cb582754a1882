import Mathlib.Data.Int.Notation
import Mathlib.Data.List.Basic
import Mathlib.Tactic.Common

/-!
# Streams that arrive in pieces

A read gets as much as has arrived, at most what it asks for. A receiver that gets a message off the
front of a stream, whatever the pieces, gets every sequence of messages off it.
-/

universe u v w

/-- What is still to be read, and how much the coming reads find: nothing if the stream is at its
end, and less than nothing if they fail. -/
structure SegmentedStream (α : Type u) where
  incoming : List α
  found : ℕ → ℤ

namespace SegmentedStream

variable {α : Type u} {s : SegmentedStream α} {n : ℕ}

/-- A read of at most `n` elements: what it returns, and what it has read. -/
def recv (s : SegmentedStream α) (n : ℕ) : ℤ × List α × SegmentedStream α :=
  let k := min (s.found 0).toNat (min n s.incoming.length)
  (if s.found 0 < 0 then -1 else k,
    s.incoming.take k, ⟨s.incoming.drop k, fun i => s.found (i + 1)⟩)

/-- No read fails, and none finds nothing before the end. -/
def Reliable (s : SegmentedStream α) : Prop := ∀ i, 1 ≤ s.found i

/-- The stream is reliable, and this is still to be read. -/
def Holds (s : SegmentedStream α) (data : List α) : Prop := s.Reliable ∧ s.incoming = data

/-- A read gets between one element and all that it asks for, in their order. -/
theorem Holds.recv {data : List α} (h : s.Holds data) (hdata : data ≠ []) (hn : n ≠ 0) :
    ∃ k s', 1 ≤ k ∧ k ≤ n ∧ k ≤ data.length ∧ s.recv n = ((k : ℤ), data.take k, s') ∧
      s'.Holds (data.drop k) := by
  obtain ⟨hs, rfl⟩ := h
  have hfound := hs 0
  have hpos := List.length_pos_iff.mpr hdata
  refine ⟨min (s.found 0).toNat (min n s.incoming.length), ⟨s.incoming.drop _, fun i => s.found (i + 1)⟩,
    by omega, by omega, by omega, ?_, fun i => hs (i + 1), rfl⟩
  unfold SegmentedStream.recv
  dsimp only
  rw [if_neg (by omega)]

end SegmentedStream

namespace Receiver

variable {S : Type u} {α : Type v} {ε : Type w}

/-- `n` messages, one after the other. -/
def receiveN (receive : S → Except ε (α × S)) : ℕ → S → Except ε (List α × S)
  | 0, s => .ok ([], s)
  | n + 1, s =>
    match receive s with
    | .error e => .error e
    | .ok (m, s) =>
      match receiveN receive n s with
      | .error e => .error e
      | .ok (ms, s) => .ok (m :: ms, s)

/-- A receiver that gets every message off the front gets every sequence of messages. -/
theorem receiveN_eq {β γ : Type*} {receive : S → Except ε (α × S)} (Holds : S → List β → Prop)
    {encode : γ → List β} {decode : γ → α} {P : γ → Prop}
    (h : ∀ m s rest, P m → Holds s (encode m ++ rest) →
      ∃ s', receive s = .ok (decode m, s') ∧ Holds s' rest)
    {ms : List γ} {s : S} {rest : List β} (hms : ∀ m ∈ ms, P m)
    (hs : Holds s (ms.flatMap encode ++ rest)) :
    ∃ s', receiveN receive ms.length s = .ok (ms.map decode, s') ∧ Holds s' rest := by
  induction ms generalizing s with
  | nil => exact ⟨s, rfl, hs⟩
  | cons m ms ih =>
    obtain ⟨hm, hms⟩ := List.forall_mem_cons.mp hms
    rw [List.flatMap_cons, List.append_assoc] at hs
    obtain ⟨s₁, hreceive, hs₁⟩ := h m s _ hm hs
    obtain ⟨s₂, hrest, hs₂⟩ := ih hms hs₁
    refine ⟨s₂, ?_, hs₂⟩
    rw [List.length_cons, receiveN, hreceive]
    dsimp only
    rw [hrest]
    rfl

end Receiver
