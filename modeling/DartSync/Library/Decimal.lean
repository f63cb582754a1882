import Mathlib.Data.Int.Notation
import Mathlib.Data.List.Basic
import Mathlib.Data.List.TakeWhile
import Mathlib.Tactic.Ring

/-!
# Decimal numbers in byte strings

`ofInt` prints an integer as `%d` and `%ld` do, and `scan` reads one as the integer conversions of
`sscanf` do: white space, a sign, digits. The conversions differ in what they make of the sign and
the digits (`strtol`, `strtoul`); each inverts the printing of a number of its width, and `strtoul`
also that of a negative one (`strtoul_ofInt`).
-/

namespace Decimal

/-! ## Bytes -/

/-- `isdigit` -/
def isDigit (b : UInt8) : Bool := decide (48 ≤ b.toNat ∧ b.toNat ≤ 57)

/-- `isspace` -/
def isSpace (b : UInt8) : Bool := decide (b.toNat = 32 ∨ 9 ≤ b.toNat ∧ b.toNat ≤ 13)

/-- The text does not go on with a digit. -/
def Ends (rest : List UInt8) : Prop := ∀ b ∈ rest.head?, isDigit b = false

theorem ends_nil : Ends [] := nofun

theorem ends_cons {b : UInt8} {rest : List UInt8} (h : isDigit b = false) : Ends (b :: rest) := by
  intro c hc
  obtain rfl : b = c := Option.some.inj hc
  exact h

theorem isSpace_of_isDigit {b : UInt8} (h : isDigit b = true) : isSpace b = false := by
  unfold isDigit at h
  unfold isSpace
  simp only [decide_eq_true_eq, decide_eq_false_iff_not] at h ⊢
  omega

/-! ## Printing -/

/-- The digits of `n`. -/
def ofNat (n : ℕ) : List UInt8 := (Nat.toDigits 10 n).map Char.toUInt8

/-- `%ld` and `%d` of `printf`. -/
def ofInt (i : ℤ) : List UInt8 := if i < 0 then 45 :: ofNat i.natAbs else ofNat i.natAbs

/-! ## Scanning -/

/-- The number with these digits. -/
def ofDigits (digits : List UInt8) : ℕ := digits.foldl (fun n b => 10 * n + (b.toNat - 48)) 0

/-- The sign of a number and the text after it. -/
def scanSign : List UInt8 → Bool × List UInt8
  | [] => (false, [])
  | b :: rest =>
    if b = 45 then (true, rest) else if b = 43 then (false, rest) else (false, b :: rest)

/-- An integer conversion of `sscanf`: whether there is a minus sign, the number, and the text after
it. -/
def scan (text : List UInt8) : Option (Bool × ℕ × List UInt8) :=
  let (minus, text) := scanSign (text.dropWhile isSpace)
  let digits := text.takeWhile isDigit
  if digits = [] then none else some (minus, ofDigits digits, text.dropWhile isDigit)

/-- `strtoul` on the sign and the number: a minus sign negates modulo 2 ^ 64. -/
def strtoul (minus : Bool) (n : ℕ) : UInt64 :=
  if n < 2 ^ 64 then if minus then -UInt64.ofNat n else UInt64.ofNat n else UInt64.ofNat (2 ^ 64 - 1)

/-- `strtol` on the sign and the number: it stops at the bounds of a `long`. -/
def strtol (minus : Bool) (n : ℕ) : Int64 :=
  if minus then if n ≤ 2 ^ 63 then Int64.ofInt (-n) else Int64.minValue
  else if n < 2 ^ 63 then Int64.ofInt n else Int64.maxValue

/-! ## What is printed is read back -/

variable {n : ℕ} {i : ℤ} {b : UInt8} {text rest : List UInt8}

theorem toNat_toUInt8_of_isDigit {c : Char} (h : c.isDigit = true) : c.toUInt8.toNat = c.toNat := by
  rw [Char.isDigit_iff_toNat] at h
  show c.val.toNat % 2 ^ 8 = c.val.toNat
  have hc : c.val.toNat ≤ 57 := h.2
  omega

theorem isDigit_of_mem_ofNat (h : b ∈ ofNat n) : isDigit b = true := by
  obtain ⟨c, hc, rfl⟩ := List.mem_map.mp h
  have hc : c.isDigit = true := Nat.isDigit_of_mem_toDigits (by decide) (by decide) hc
  unfold isDigit
  rw [toNat_toUInt8_of_isDigit hc]
  exact decide_eq_true (Char.isDigit_iff_toNat.mp hc)

theorem ofNat_ne_nil : ofNat n ≠ [] := by
  unfold ofNat
  simp

theorem ofDigits_ofNat : ofDigits (ofNat n) = n := by
  unfold ofDigits ofNat
  rw [List.foldl_map]
  conv_rhs => rw [← Nat.ofDigitChars_ten_toDigits (n := n)]
  rw [Nat.ofDigitChars_eq_foldl]
  refine List.foldl_ext _ _ _ fun m c hc => ?_
  rw [toNat_toUInt8_of_isDigit (Nat.isDigit_of_mem_toDigits (by decide) (by decide) hc)]
  rfl

/-- The first byte of a printed number. -/
theorem ofNat_eq_cons (n : ℕ) : ∃ b bs, ofNat n = b :: bs ∧ isDigit b = true := by
  obtain ⟨b, bs, h⟩ := List.exists_cons_of_ne_nil (ofNat_ne_nil (n := n))
  exact ⟨b, bs, h, isDigit_of_mem_ofNat (h ▸ List.mem_cons_self)⟩

theorem scanSign_of_isDigit (h : isDigit b = true) : scanSign (b :: text) = (false, b :: text) := by
  have h45 : b ≠ 45 := fun h' => absurd h (by rw [h']; decide)
  have h43 : b ≠ 43 := fun h' => absurd h (by rw [h']; decide)
  unfold scanSign
  dsimp only
  rw [if_neg h45, if_neg h43]

/-- Digits and the text after them. -/
theorem span_digits {digits : List UInt8} (hdigits : ∀ b ∈ digits, isDigit b = true) (h : Ends rest) :
    (digits ++ rest).takeWhile isDigit = digits ∧ (digits ++ rest).dropWhile isDigit = rest := by
  rw [List.takeWhile_append_of_pos hdigits, List.dropWhile_append_of_pos hdigits]
  cases rest with
  | nil => exact ⟨List.append_nil _, rfl⟩
  | cons b rest =>
    have hb : ¬ isDigit b = true := by rw [h b rfl]; exact Bool.false_ne_true
    rw [List.takeWhile_cons_of_neg hb, List.dropWhile_cons_of_neg hb]
    exact ⟨List.append_nil _, rfl⟩

theorem scan_ofInt (h : Ends rest) :
    scan (ofInt i ++ rest) = some (decide (i < 0), i.natAbs, rest) := by
  obtain ⟨b, bs, hcons, hb⟩ := ofNat_eq_cons i.natAbs
  obtain ⟨htake, hdrop⟩ := span_digits (fun b hb => isDigit_of_mem_ofNat (n := i.natAbs) hb) h
  have hspace : ¬ isSpace b = true := by rw [isSpace_of_isDigit hb]; exact Bool.false_ne_true
  have hsign : scanSign ((ofInt i ++ rest).dropWhile isSpace) =
      (decide (i < 0), ofNat i.natAbs ++ rest) := by
    unfold ofInt
    by_cases hi : i < 0
    · rw [if_pos hi, List.cons_append, List.dropWhile_cons_of_neg (by decide), decide_eq_true hi]
      rfl
    · rw [if_neg hi, hcons, List.cons_append, List.dropWhile_cons_of_neg hspace,
        scanSign_of_isDigit hb, decide_eq_false hi]
  unfold scan
  rw [hsign]
  dsimp only
  rw [htake, hdrop, if_neg ofNat_ne_nil, ofDigits_ofNat]

theorem scan_space : scan (32 :: text) = scan text := by
  unfold scan
  rw [List.dropWhile_cons_of_pos (by decide)]

theorem strtol_ofInt (x : Int64) : strtol (decide (x.toInt < 0)) x.toInt.natAbs = x := by
  have hlo := x.le_toInt
  have hhi := x.toInt_lt
  unfold strtol
  by_cases hx : x.toInt < 0
  · have habs : -(x.toInt.natAbs : ℤ) = x.toInt := by omega
    rw [decide_eq_true hx, if_pos rfl, if_pos (by omega), habs]
    exact Int64.ofInt_toInt _
  · have habs : (x.toInt.natAbs : ℤ) = x.toInt := by omega
    rw [decide_eq_false hx, if_neg Bool.false_ne_true, if_pos (by omega), habs]
    exact Int64.ofInt_toInt _

/-- An `int` printed with `%d` and read with `%d`. -/
theorem strtol_ofInt32 (x : Int32) :
    (strtol (decide (x.toInt < 0)) x.toInt.natAbs).toInt32 = x := by
  rw [← Int32.toInt_toInt64, strtol_ofInt]
  exact Int32.toInt32_toInt64 x

/-- An `unsigned long` printed with `%ld` and read with `%lu`. -/
theorem strtoul_ofInt (x : UInt64) :
    strtoul (decide (x.toInt64.toInt < 0)) x.toInt64.toInt.natAbs = x := by
  have hlo := x.toInt64.le_toInt
  have hhi := x.toInt64.toInt_lt
  unfold strtoul
  rw [if_pos (by omega)]
  suffices h : ∀ y : UInt64, y.toInt64 = x.toInt64 → y = x by
    apply h
    by_cases hx : x.toInt64.toInt < 0
    · have habs : -(x.toInt64.toInt.natAbs : ℤ) = x.toInt64.toInt := by omega
      rw [decide_eq_true hx, if_pos rfl, UInt64.toInt64_neg, UInt64.toInt64_ofNat',
        ← Int64.ofInt_eq_ofNat, ← Int64.ofInt_neg, habs]
      exact Int64.ofInt_toInt _
    · have habs : (x.toInt64.toInt.natAbs : ℤ) = x.toInt64.toInt := by omega
      rw [decide_eq_false hx, if_neg Bool.false_ne_true, UInt64.toInt64_ofNat',
        ← Int64.ofInt_eq_ofNat, habs]
      exact Int64.ofInt_toInt _
  intro y hy
  rw [← x.toUInt64_toInt64, ← hy]
  exact y.toUInt64_toInt64.symm

/-! ## What is scanned -/

/-- White space, a sign and digits. -/
def IsNumber (text : List UInt8) : Prop :=
  ∃ spaces sign digits, text = spaces ++ (sign ++ digits) ∧ (∀ b ∈ spaces, isSpace b = true) ∧
    (sign = [] ∨ sign = [45] ∨ sign = [43]) ∧ digits ≠ [] ∧ ∀ b ∈ digits, isDigit b = true

theorem exists_sign (text : List UInt8) :
    ∃ sign, (sign = [] ∨ sign = [45] ∨ sign = [43]) ∧ text = sign ++ (scanSign text).2 := by
  cases text with
  | nil => exact ⟨[], Or.inl rfl, rfl⟩
  | cons b rest =>
    unfold scanSign
    dsimp only
    split_ifs with h45 h43
    · exact ⟨[45], Or.inr (Or.inl rfl), by rw [h45]; rfl⟩
    · exact ⟨[43], Or.inr (Or.inr rfl), by rw [h43]; rfl⟩
    · exact ⟨[], Or.inl rfl, rfl⟩

/-- A conversion succeeds on a number that the text does not go on with digits after. -/
theorem scan_isSome_iff : (∃ minus n, scan text = some (minus, n, rest)) ↔
    ∃ number, IsNumber number ∧ Ends rest ∧ text = number ++ rest := by
  constructor
  · rintro ⟨minus, n, h⟩
    obtain ⟨sign, hsign, hsplit⟩ := exists_sign (text.dropWhile isSpace)
    unfold scan at h
    dsimp only at h
    split_ifs at h with hdigits
    obtain rfl := (Prod.mk.inj (Prod.mk.inj (Option.some.inj h)).2).2
    refine ⟨text.takeWhile isSpace ++ (sign ++ (scanSign (text.dropWhile isSpace)).2.takeWhile isDigit),
      ⟨_, sign, _, rfl, fun b hb => List.mem_takeWhile_imp hb, hsign, hdigits,
        fun b hb => List.mem_takeWhile_imp hb⟩, fun b hb => ?_, ?_⟩
    · have hnot := List.head?_dropWhile_not isDigit (scanSign (text.dropWhile isSpace)).2
      rwa [Option.mem_def.mp hb] at hnot
    · rw [List.append_assoc, List.append_assoc, List.takeWhile_append_dropWhile, ← hsplit,
        List.takeWhile_append_dropWhile]
  · rintro ⟨number, ⟨spaces, sign, digits, rfl, hspaces, hsign, hne, hdigits⟩, hends, rfl⟩
    obtain ⟨htake, hdrop⟩ := span_digits hdigits hends
    obtain ⟨b, bs, rfl⟩ := List.exists_cons_of_ne_nil hne
    have hb : isDigit b = true := hdigits b List.mem_cons_self
    have hspace : ¬ isSpace b = true := by rw [isSpace_of_isDigit hb]; exact Bool.false_ne_true
    obtain ⟨minus, hscan⟩ : ∃ minus, scanSign ((spaces ++ (sign ++ b :: bs) ++ rest).dropWhile isSpace) =
        (minus, b :: bs ++ rest) := by
      rw [List.append_assoc, List.dropWhile_append_of_pos hspaces, List.append_assoc]
      rcases hsign with rfl | rfl | rfl
      · refine ⟨false, ?_⟩
        rw [List.nil_append, List.cons_append, List.dropWhile_cons_of_neg hspace]
        exact scanSign_of_isDigit hb
      · exact ⟨true, rfl⟩
      · exact ⟨false, rfl⟩
    refine ⟨minus, ofDigits (b :: bs), ?_⟩
    unfold scan
    rw [hscan]
    dsimp only
    rw [htake, hdrop, if_neg hne]

/-- A number holds no NUL. -/
theorem IsNumber.notMem {number : List UInt8} (h : IsNumber number) : 0 ∉ number := by
  obtain ⟨spaces, sign, digits, rfl, hspaces, hsign, -, hdigits⟩ := h
  intro hmem
  rcases List.mem_append.mp hmem with hmem | hmem
  · exact absurd (hspaces 0 hmem) (by decide)
  · rcases List.mem_append.mp hmem with hmem | hmem
    · rcases hsign with rfl | rfl | rfl <;> revert hmem <;> decide
    · exact absurd (hdigits 0 hmem) (by decide)

theorem IsNumber.ne_nil {number : List UInt8} (h : IsNumber number) : number ≠ [] := by
  obtain ⟨spaces, sign, digits, rfl, -, -, hne, -⟩ := h
  exact List.append_ne_nil_of_right_ne_nil _ (List.append_ne_nil_of_right_ne_nil _ hne)

/-! ## Lengths -/

theorem length_ofNat {k : ℕ} (hk : 0 < k) (h : n < 10 ^ k) : (ofNat n).length ≤ k := by
  unfold ofNat
  rw [List.length_map]
  exact (Nat.length_toDigits_le_iff (by decide) hk).mpr h

theorem length_ofInt {k : ℕ} (hk : 0 < k) (h : i.natAbs < 10 ^ k) : (ofInt i).length ≤ k + 1 := by
  have hlen := length_ofNat hk h
  unfold ofInt
  split_ifs
  · rw [List.length_cons]
    omega
  · omega

/-- A printed number holds no NUL. -/
theorem notMem_ofInt : 0 ∉ ofInt i := by
  have hdigits : 0 ∉ ofNat i.natAbs := fun h => absurd (isDigit_of_mem_ofNat h) (by decide)
  unfold ofInt
  split_ifs
  · exact fun h => (List.mem_cons.mp h).elim (by decide) hdigits
  · exact hdigits

end Decimal
