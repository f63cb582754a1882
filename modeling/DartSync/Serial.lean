import DartSync.Basic
import DartSync.Library.Decimal

/-!
# Strings and numbers in a buffer

What the serial formats and the messages share. A buffer is read from a cursor on: the list of the
bytes that are left. What is written in front of any bytes is read back, and the cursor is then at
these bytes.
-/

namespace DartSync

open Decimal

variable {str : CString} {rest data : List UInt8}

/-- `push_string`, the bytes that it pushes. -/
def pushString (str : CString) : List UInt8 := str.bytes ++ [0]

/-- `copy_string` at the cursor, and the cursor behind the NUL. -/
def readString (data : List UInt8) : Except Abort (CString × List UInt8) :=
  if 0 ∈ data then
    .ok (.ofBytes data, data.drop ((CString.ofBytes data).length + 1))
  else .error .outOfBounds

theorem zero_mem_pushString : 0 ∈ pushString str ++ rest := by
  unfold pushString
  simp

theorem length_pushString : (pushString str).length = str.length + 1 := by
  unfold pushString CString.length
  rw [List.length_append, List.length_singleton]

theorem ofBytes_pushString : CString.ofBytes (pushString str ++ rest) = str := by
  unfold pushString
  rw [List.append_assoc]
  exact CString.ofBytes_append str _ (Or.inr ⟨rest, rfl⟩)

/-- **Strings.** A string is read back. -/
theorem readString_pushString : readString (pushString str ++ rest) = .ok (str, rest) := by
  unfold readString
  rw [if_pos zero_mem_pushString, ofBytes_pushString, List.drop_left' length_pushString]

/-- A buffer with a NUL starts with a string. -/
theorem exists_pushString (h : 0 ∈ data) : ∃ rest, data = pushString (.ofBytes data) ++ rest := by
  obtain ⟨before, rest, rfl, hbefore⟩ := List.eq_append_cons_of_mem h
  have hbytes := CString.ofBytes_append ⟨before, hbefore⟩ (0 :: rest) (Or.inr ⟨rest, rfl⟩)
  refine ⟨rest, ?_⟩
  rw [hbytes]
  exact List.append_cons before 0 rest

/-- What is read is a string and its NUL. -/
theorem readString_eq_ok : readString data = .ok (str, rest) ↔ data = pushString str ++ rest := by
  constructor
  · intro h
    unfold readString at h
    split_ifs at h with hmem
    obtain ⟨rest', hdata⟩ := exists_pushString hmem
    have hread : readString (pushString (.ofBytes data) ++ rest') = .ok (.ofBytes data, rest') :=
      readString_pushString
    rw [← hdata, readString, if_pos hmem, h] at hread
    cases hread
    exact hdata
  · rintro rfl
    exact readString_pushString

theorem readString_error {a : Abort} (h : readString data = .error a) : a = .outOfBounds := by
  unfold readString at h
  split_ifs at h
  cases h
  rfl

theorem length_lt_of_readString (h : readString data = .ok (str, rest)) : rest.length < data.length := by
  rw [readString_eq_ok.mp h, List.length_append, length_pushString]
  omega

/-- The string that starts a buffer, behind bytes that are not NUL. -/
theorem bytes_ofBytes_append {word : List UInt8} (h : 0 ∉ word) :
    (CString.ofBytes (word ++ data)).bytes = word ++ (CString.ofBytes data).bytes :=
  List.takeWhile_append_of_pos fun _ hb => decide_eq_true fun h0 => h (h0 ▸ hb)

/-- The length of what is in front of `rest` takes `drop` to `rest`. -/
theorem drop_length_sub {b : UInt8} {consumed : List UInt8} (h : data = b :: (consumed ++ rest)) :
    0 < data.length - rest.length ∧ data.drop (data.length - rest.length) = rest := by
  have hlen : data.length - rest.length = (b :: consumed).length := by
    rw [h, List.length_cons, List.length_cons, List.length_append]
    omega
  rw [hlen]
  exact ⟨Nat.succ_pos _, by rw [h, ← List.cons_append, List.drop_left]⟩

/-- The decoder returns, it has read some bytes of the buffer and no others, and `rest` is left. -/
def ReturnsInside {α : Type} (decode : List UInt8 → Except Abort (α × ℕ)) (data rest : List UInt8) :
    Prop :=
  ∃ x bytesRead, decode data = .ok (x, bytesRead) ∧ 0 < bytesRead ∧ bytesRead ≤ data.length ∧
    rest = data.drop bytesRead

/-! ## Numbers in a buffer -/

/-- Numbers that are scanned from a string leave its end; the NUL or whatever else comes first behind
them is skipped. -/
theorem ofBytes_eq_append_iff {word : List UInt8} (hword : 0 ∉ word) (hmem : 0 ∈ data) :
    (∃ text, (CString.ofBytes data).bytes = word ++ text ∧ Ends text ∧
      rest = data.drop (word.length + 1)) ↔ ∃ b, isDigit b = false ∧ data = word ++ b :: rest := by
  constructor
  · rintro ⟨text, htext, hends, rfl⟩
    obtain ⟨rest, hdata⟩ := exists_pushString hmem
    have hsplit : data = word ++ (text ++ 0 :: rest) := by
      rw [hdata, pushString, htext, List.append_assoc, List.append_assoc]
      rfl
    cases text with
    | nil => exact ⟨0, rfl, by rw [hsplit, List.drop_append]; simp⟩
    | cons b text => exact ⟨b, hends b rfl, by rw [hsplit, List.drop_append]; simp⟩
  · rintro ⟨b, hb, rfl⟩
    refine ⟨_, bytes_ofBytes_append hword, ?_, by rw [List.drop_append]; simp⟩
    intro c hc
    by_cases h0 : b = 0
    · subst h0
      cases hc
    · have hnot : 0 ∉ [b] := fun h => h0 (List.mem_singleton.mp h).symm
      have hbytes : (CString.ofBytes (b :: rest)).bytes = b :: (CString.ofBytes rest).bytes :=
        bytes_ofBytes_append hnot
      rw [hbytes] at hc
      rwa [← Option.some.inj hc]

/-! ## The bytes of an `int` -/

/-- An `int` in memory, the low byte first. -/
def intBytes (x : Int32) : List UInt8 :=
  let n := x.toUInt32.toNat
  [.ofNat n, .ofNat (n / 2 ^ 8), .ofNat (n / 2 ^ 16), .ofNat (n / 2 ^ 24)]

/-- The `int` at the cursor. -/
def readInt : List UInt8 → Except Abort Int32
  | b0 :: b1 :: b2 :: b3 :: _ =>
    .ok (UInt32.ofNat (b0.toNat + b1.toNat * 2 ^ 8 + b2.toNat * 2 ^ 16 + b3.toNat * 2 ^ 24)).toInt32
  | _ => .error .outOfBounds

/-- The bytes of a number of 32 bits make up the number. -/
theorem sum_bytes {n : ℕ} (hn : n < 2 ^ 32) : n % 2 ^ 8 + n / 2 ^ 8 % 2 ^ 8 * 2 ^ 8 +
    n / 2 ^ 16 % 2 ^ 8 * 2 ^ 16 + n / 2 ^ 24 % 2 ^ 8 * 2 ^ 24 = n := by
  omega

theorem readInt_intBytes {x : Int32} : readInt (intBytes x ++ rest) = .ok x := by
  have hx : x.toUInt32.toNat < 2 ^ 32 := x.toUInt32.toNat_lt
  unfold readInt intBytes
  simp only [List.cons_append, UInt8.toNat_ofNat', Except.ok.injEq]
  rw [sum_bytes hx, UInt32.ofNat_toNat]
  exact x.toInt32_toUInt32

end DartSync
