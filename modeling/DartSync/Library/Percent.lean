import Mathlib.Data.List.Basic
import Mathlib.Tactic.Common

/-!
# Percent-encoded bytes

Decoding replaces every `%` with two hexadecimal digits behind it by the byte that they stand for, and
keeps every other `%`. Where all escapes are complete there are no others. Encoding escapes all bytes
that are not said to be safe; it leaves nothing but safe bytes, `%` and digits, and decoding undoes it.
-/

namespace Percent

/-- `0`–`9`, `A`–`F`, `a`–`f` -/
def isHexDigit (b : UInt8) : Bool :=
  (48 ≤ b && b ≤ 57) || (65 ≤ b && b ≤ 70) || (97 ≤ b && b ≤ 102)

/-- The value of a digit. -/
def hexValue (b : UInt8) : ℕ :=
  if b ≤ 57 then b.toNat - 48 else if b ≤ 70 then b.toNat - 55 else b.toNat - 87

/-- The byte that two digits stand for. -/
def escaped (c1 c2 : UInt8) : UInt8 := .ofNat (16 * hexValue c1 + hexValue c2)

def percentDecode : List UInt8 → List UInt8
  | b :: c1 :: c2 :: rest =>
    if b = 37 ∧ isHexDigit c1 ∧ isHexDigit c2 then escaped c1 c2 :: percentDecode rest
    else b :: percentDecode (c1 :: c2 :: rest)
  | l => l

/-- Two digits follow every `%`. -/
inductive EscapesComplete : List UInt8 → Prop
  | nil : EscapesComplete []
  | byte {b : UInt8} {rest : List UInt8} :
      b ≠ 37 → EscapesComplete rest → EscapesComplete (b :: rest)
  | escape {c1 c2 : UInt8} {rest : List UInt8} :
      isHexDigit c1 → isHexDigit c2 → EscapesComplete rest → EscapesComplete (37 :: c1 :: c2 :: rest)

variable {b c1 c2 : UInt8} {l rest : List UInt8}

/-- Induction along a text: a byte, an escape that is cut off, or a `%` with two bytes behind it. -/
@[elab_as_elim]
theorem ind {P : List UInt8 → Prop} (nil : P [])
    (byte : ∀ b rest, b ≠ 37 → P rest → P (b :: rest)) (cut : P [37]) (cutDigit : ∀ c, P [37, c])
    (escape : ∀ c1 c2 rest, P rest → P (37 :: c1 :: c2 :: rest)) (l : List UInt8) : P l := by
  induction hn : l.length using Nat.strongRecOn generalizing l with
  | ind n ih =>
    rcases l with _ | ⟨b, rest⟩
    · exact nil
    · subst hn
      by_cases hb : b = 37
      · subst hb
        rcases rest with _ | ⟨c1, _ | ⟨c2, rest⟩⟩
        · exact cut
        · exact cutDigit c1
        · exact escape c1 c2 rest (ih rest.length (by simp; omega) rest rfl)
      · exact byte b rest hb (ih rest.length (Nat.lt_succ_self _) rest rfl)

theorem percentDecode_cons : percentDecode (b :: c1 :: c2 :: rest) =
    if b = 37 ∧ isHexDigit c1 ∧ isHexDigit c2 then escaped c1 c2 :: percentDecode rest
    else b :: percentDecode (c1 :: c2 :: rest) := rfl

theorem percentDecode_byte (h : b ≠ 37) : percentDecode (b :: rest) = b :: percentDecode rest := by
  rcases rest with _ | ⟨c1, _ | ⟨c2, rest⟩⟩
  · rfl
  · rfl
  · rw [percentDecode_cons, if_neg fun hb => h hb.1]

theorem percentDecode_escape (h1 : isHexDigit c1) (h2 : isHexDigit c2) :
    percentDecode (37 :: c1 :: c2 :: rest) = escaped c1 c2 :: percentDecode rest := by
  rw [percentDecode_cons, if_pos ⟨rfl, h1, h2⟩]

/-- A `%` without two digits is kept. -/
theorem percentDecode_bad (h : ¬ (isHexDigit c1 ∧ isHexDigit c2)) :
    percentDecode (37 :: c1 :: c2 :: rest) = 37 :: percentDecode (c1 :: c2 :: rest) := by
  rw [percentDecode_cons, if_neg fun hc => h hc.2]

theorem hexValue_lt (h : isHexDigit b) : hexValue b < 16 := by
  simp only [isHexDigit, Bool.or_eq_true, Bool.and_eq_true, decide_eq_true_eq,
    UInt8.le_iff_toNat_le, UInt8.reduceToNat] at h
  simp only [hexValue, UInt8.le_iff_toNat_le, UInt8.reduceToNat]
  split_ifs <;> omega

/-! ## Encoding -/

/-- The digit of a number below 16. -/
def hexDigit (n : ℕ) : UInt8 := if n < 10 then .ofNat (48 + n) else .ofNat (55 + n)

/-- What stands for a byte. -/
def percentEncodeByte (safe : UInt8 → Bool) (b : UInt8) : List UInt8 :=
  if safe b then [b] else [37, hexDigit (b.toNat / 16), hexDigit (b.toNat % 16)]

def percentEncode (safe : UInt8 → Bool) (l : List UInt8) : List UInt8 :=
  l.flatMap (percentEncodeByte safe)

variable {safe : UInt8 → Bool} {n : ℕ}

theorem isHexDigit_hexDigit (h : n < 16) : isHexDigit (hexDigit n) = true := by
  have hall : ∀ n < 16, isHexDigit (hexDigit n) = true := by decide
  exact hall n h

theorem hexValue_hexDigit (h : n < 16) : hexValue (hexDigit n) = n := by
  have hall : ∀ n < 16, hexValue (hexDigit n) = n := by decide
  exact hall n h

/-- The two digits of a byte stand for it. -/
theorem escaped_hexDigit (b : UInt8) :
    escaped (hexDigit (b.toNat / 16)) (hexDigit (b.toNat % 16)) = b := by
  have hb := UInt8.toNat_lt b
  unfold escaped
  rw [hexValue_hexDigit (by omega), hexValue_hexDigit (Nat.mod_lt _ (by decide)), Nat.div_add_mod]
  exact UInt8.ofNat_toNat

/-- All escapes of an encoded text are complete, and decoding undoes them. -/
theorem percentDecode_percentEncode (hsafe : safe 37 = false) (l : List UInt8) :
    EscapesComplete (percentEncode safe l) ∧ percentDecode (percentEncode safe l) = l := by
  induction l with
  | nil => exact ⟨.nil, rfl⟩
  | cons b l ih =>
    have hcons : percentEncode safe (b :: l) = percentEncodeByte safe b ++ percentEncode safe l :=
      List.flatMap_cons
    rw [hcons]
    unfold percentEncodeByte
    split_ifs with hb
    · have hne : b ≠ 37 := by
        rintro rfl
        exact Bool.false_ne_true (hsafe.symm.trans hb)
      exact ⟨.byte hne ih.1, by rw [List.singleton_append, percentDecode_byte hne, ih.2]⟩
    · have hlt := UInt8.toNat_lt b
      have h1 := isHexDigit_hexDigit (show b.toNat / 16 < 16 by omega)
      have h2 := isHexDigit_hexDigit (Nat.mod_lt b.toNat (show 0 < 16 by decide))
      refine ⟨.escape h1 h2 ih.1, ?_⟩
      rw [List.cons_append, List.cons_append, List.singleton_append, percentDecode_escape h1 h2,
        escaped_hexDigit, ih.2]

/-- What is neither safe nor a part of an escape does not come up. -/
theorem notMem_percentEncode (hsafe : safe c1 = false) (hpercent : c1 ≠ 37)
    (hdigit : isHexDigit c1 = false) : c1 ∉ percentEncode safe l := by
  intro hmem
  obtain ⟨b, -, hb⟩ := List.mem_flatMap.mp hmem
  have hlt := UInt8.toNat_lt b
  have hne : ∀ n < 16, c1 ≠ hexDigit n := by
    rintro n hn rfl
    exact Bool.false_ne_true (hdigit.symm.trans (isHexDigit_hexDigit hn))
  unfold percentEncodeByte at hb
  split_ifs at hb with hsafe'
  · rw [List.mem_singleton.mp hb, hsafe'] at hsafe
    cases hsafe
  · rcases List.mem_cons.mp hb with rfl | hb
    · exact hpercent rfl
    · rcases List.mem_pair.mp hb with h | h
      · exact hne _ (by omega) h
      · exact hne _ (Nat.mod_lt _ (by decide)) h

end Percent
