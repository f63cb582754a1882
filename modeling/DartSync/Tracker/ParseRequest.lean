import DartSync.Basic
import DartSync.Library.Percent

/-!
# Request lines

The tracker's web page takes the name of a file from the request line of a browser. `parse_request`
decodes the URI without looking at the two bytes behind a `%`, with the size of a line as its bound
and not that of `filename`, and cuts off a query only if the URI starts with a slash.
`parsesExactly_iff` says of which lines the result is nevertheless the decoded path.
-/

namespace DartSync

open Percent

/-- `MAXLINE` -/
def maxLine : ℕ := 1024

/-- `sizeof(filename)` in `http_request` -/
def filenameSize : ℕ := 512

/-- `http_request`; the terminating NUL is left out. -/
structure HttpRequest where
  filename : List UInt8
  length_lt : filename.length < filenameSize
  (offset : ℤ) (end' : ℕ)

/-- `isspace` -/
def isSpace (b : UInt8) : Bool := b = 32 || (9 ≤ b && b ≤ 13)

/-- A `%s` of `sscanf`: the word, and what is behind it. -/
def scanWord (str : List UInt8) : Option (List UInt8 × List UInt8) :=
  let str := str.dropWhile isSpace
  if str = [] then none
  else some (str.takeWhile fun b => !isSpace b, str.dropWhile fun b => !isSpace b)

/-- `sscanf(buf, "%s %s %s", method, uri, version)`, what it gives for `uri`. -/
def scanUri (buf : CString) : Option (List UInt8) := do
  let (_, str) ← scanWord buf.bytes
  let (uri, _) ← scanWord str
  return uri

/-- The digits in front, to the base 16, with the `0x` that may come first. -/
def hexDigits (str : List UInt8) : List UInt8 :=
  match str with
  | zero :: x :: digit :: rest =>
    if zero = 48 ∧ (x = 120 ∨ x = 88) ∧ isHexDigit digit then (digit :: rest).takeWhile isHexDigit
    else str.takeWhile isHexDigit
  | _ => str.takeWhile isHexDigit

/-- The number that they make, as a `char`. -/
def hexNumber (str : List UInt8) : UInt8 :=
  .ofNat ((hexDigits str).foldl (fun n digit => 16 * n + hexValue digit) 0)

/-- `(char)strtoul(code, NULL, 16)` -/
def strtoul (code : List UInt8) : UInt8 :=
  match code.dropWhile isSpace with
  | [] => 0
  | sign :: rest =>
    if sign = 45 then 0 - hexNumber rest
    else if sign = 43 then hexNumber rest
    else hexNumber (sign :: rest)

/-- `*destination++ = c` -/
def putChar (filename : List UInt8) (c : UInt8) : Except Abort (List UInt8) :=
  if filename.length < filenameSize then .ok (filename ++ [c]) else .error .outOfBounds

/-- The loop of `parse_request` that decodes. The bytes are those from `p` up to the NUL, and what lies
behind the NUL is not the URI's. -/
def decodeLoop : ℕ → List UInt8 → List UInt8 → Except Abort (List UInt8)
  | _, [], filename => .ok filename
  | max, b :: rest, filename =>
    if max - 1 = 0 then .ok filename
    else if b = 37 then
      match rest with
      | c1 :: c2 :: rest' => do
        let filename ← putChar filename (strtoul [c1, c2])
        decodeLoop (max - 1) rest' filename
      -- `p += 2` passes the NUL
      | _ => .error .outOfBounds
    else do
      let filename ← putChar filename b
      decodeLoop (max - 1) rest filename

/-- `file` -/
def requestFile : List UInt8 → List UInt8
  | [] => []
  | b :: rest =>
    if b = 47 then if rest = [] then [46] else rest.takeWhile (· ≠ 63)
    else b :: rest

/-- `parse_request`, of the line that `rio_readlineb` has read. -/
def parseRequest (line : List UInt8) : Except Abort HttpRequest :=
  match scanUri (.ofBytes line) with
  | none => .error .uninitialized
  | some uri => do
    let filename ← decodeLoop maxLine (requestFile uri) []
    if h : filename.length < filenameSize then return ⟨filename, h, 0, 0⟩
    else .error .outOfBounds

/-! ## What a request is for -/

/-- The path of a URI, without the slash in front; of the slash alone, the current directory. -/
def pathPart (uri : List UInt8) : List UInt8 :=
  if uri = [47] then [46]
  else (if uri.head? = some 47 then uri.tail else uri).takeWhile (· ≠ 63)

/-- The line is parsed without leaving the URI or the filename, which is the decoded path as far as
there is room for it. -/
def ParsesExactly (line : List UInt8) : Prop :=
  ∃ uri req, scanUri (.ofBytes line) = some uri ∧ parseRequest line = .ok req ∧
    req.filename = (percentDecode (pathPart uri)).take (filenameSize - 1)

variable {b c1 c2 : UInt8} {l rest data filename out bytes uri line : List UInt8} {max : ℕ}

/-! ## Escapes -/

theorem hexDigits_eq (h : l.length ≤ 2) : hexDigits l = l.takeWhile isHexDigit := by
  rcases l with _ | ⟨a, _ | ⟨b, _ | ⟨c, l⟩⟩⟩
  · rfl
  · rfl
  · rfl
  · exact absurd h (by simp)

theorem not_isSpace_of_isHexDigit (h : isHexDigit b) : isSpace b = false ∧ b ≠ 45 ∧ b ≠ 43 := by
  have hne : ∀ c, isHexDigit c = false → b ≠ c := by
    rintro c hc rfl
    exact Bool.false_ne_true (hc.symm.trans h)
  refine ⟨Bool.eq_false_iff.mpr fun hspace => ?_, hne 45 rfl, hne 43 rfl⟩
  simp only [isSpace, Bool.or_eq_true, Bool.and_eq_true, decide_eq_true_eq,
    UInt8.le_iff_toNat_le, UInt8.reduceToNat] at hspace
  simp only [isHexDigit, Bool.or_eq_true, Bool.and_eq_true, decide_eq_true_eq,
    UInt8.le_iff_toNat_le, UInt8.reduceToNat] at h
  have h32 : b ≠ 32 := hne 32 (by decide)
  have := hspace.resolve_left h32
  omega

/-- Two digits are read as the byte that they stand for. -/
theorem strtoul_hex (h1 : isHexDigit c1) (h2 : isHexDigit c2) : strtoul [c1, c2] = escaped c1 c2 := by
  obtain ⟨hspace, hminus, hplus⟩ := not_isSpace_of_isHexDigit h1
  unfold strtoul
  rw [List.dropWhile_cons_of_neg (by rw [hspace]; exact Bool.false_ne_true)]
  dsimp only
  rw [if_neg hminus, if_neg hplus, hexNumber, hexDigits_eq (le_refl 2)]
  simp [h1, h2, escaped]

/-- At most one digit makes a small number. -/
theorem hexNumber_eq (h : (hexDigits l).length ≤ 1) : ∃ n < 16, hexNumber l = .ofNat n := by
  unfold hexNumber
  have hall : ∀ digit ∈ hexDigits l, isHexDigit digit := by
    intro digit hdigit
    unfold hexDigits at hdigit
    split at hdigit
    · split_ifs at hdigit <;> exact List.mem_takeWhile_imp hdigit
    · exact List.mem_takeWhile_imp hdigit
  rcases hdigits : hexDigits l with _ | ⟨digit, _ | ⟨digit', rest⟩⟩
  · exact ⟨0, by decide, rfl⟩
  · refine ⟨hexValue digit, hexValue_lt (hall digit ?_), by simp⟩
    rw [hdigits]
    exact List.mem_cons_self
  · rw [hdigits] at h
    simp at h

theorem hexDigits_length_le (l : List UInt8) : (hexDigits l).length ≤ l.length := by
  unfold hexDigits
  split
  · split_ifs
    · exact (List.takeWhile_sublist _).length_le.trans (by simp)
    · exact (List.takeWhile_sublist _).length_le
  · exact (List.takeWhile_sublist _).length_le

/-- A number of at most one digit, with or without a sign, is not a `%`. -/
theorem hexNumber_ne (h : (hexDigits l).length ≤ 1) : hexNumber l ≠ 37 ∧ 0 - hexNumber l ≠ 37 := by
  obtain ⟨n, hn, heq⟩ := hexNumber_eq h
  have hall : ∀ n < 16, UInt8.ofNat n ≠ 37 ∧ 0 - UInt8.ofNat n ≠ 37 := by decide
  rw [heq]
  exact hall n hn

/-- Anything else is not read as a `%`. -/
theorem strtoul_ne (h : ¬ (isHexDigit c1 ∧ isHexDigit c2)) : strtoul [c1, c2] ≠ 37 := by
  have hone : ∀ c, (hexDigits [c]).length ≤ 1 := fun c => hexDigits_length_le [c]
  have hnone : (hexDigits []).length ≤ 1 := Nat.zero_le 1
  have htwo : (hexDigits [c1, c2]).length ≤ 1 := by
    rw [hexDigits_eq (le_refl 2)]
    by_cases h1 : isHexDigit c1
    · have h2 : ¬ isHexDigit c2 := fun h2 => h ⟨h1, h2⟩
      simp [h1, h2]
    · simp [h1]
  have hsigned : ∀ sign rest, (hexDigits rest).length ≤ 1 → (hexDigits (sign :: rest)).length ≤ 1 →
      (if sign = 45 then 0 - hexNumber rest else if sign = 43 then hexNumber rest
        else hexNumber (sign :: rest)) ≠ 37 := by
    intro sign rest hrest hall
    split_ifs
    exacts [(hexNumber_ne hrest).2, (hexNumber_ne hrest).1, (hexNumber_ne hall).1]
  unfold strtoul
  cases h1 : isSpace c1 with
  | false =>
    rw [List.dropWhile_cons_of_neg (by rw [h1]; exact Bool.false_ne_true)]
    exact hsigned c1 [c2] (hone c2) htwo
  | true =>
    rw [List.dropWhile_cons_of_pos h1]
    cases h2 : isSpace c2 with
    | false =>
      rw [List.dropWhile_cons_of_neg (by rw [h2]; exact Bool.false_ne_true)]
      exact hsigned c2 [] hnone (hone c2)
    | true =>
      rw [List.dropWhile_cons_of_pos h2]
      decide

/-! ## The loop -/

/-- What the loop writes when nothing stops it; `none` where it passes the NUL. -/
def urlDecode : List UInt8 → Option (List UInt8)
  | [] => some []
  | b :: rest =>
    if b = 37 then
      match rest with
      | c1 :: c2 :: rest' => (urlDecode rest').map (strtoul [c1, c2] :: ·)
      | _ => none
    else (urlDecode rest).map (b :: ·)

@[simp] theorem urlDecode_nil : urlDecode [] = some [] := rfl

theorem urlDecode_byte (h : b ≠ 37) : urlDecode (b :: rest) = (urlDecode rest).map (b :: ·) := by
  -- the two bytes behind it are matched before the test
  rcases rest with _ | ⟨c1, _ | ⟨c2, rest⟩⟩ <;> exact if_neg h

theorem urlDecode_escape : urlDecode (37 :: c1 :: c2 :: rest) =
    (urlDecode rest).map (strtoul [c1, c2] :: ·) := rfl

/-- An escape that is cut off passes the NUL. -/
theorem urlDecode_cut (h : rest.length < 2) : urlDecode (37 :: rest) = none := by
  rcases rest with _ | ⟨c1, _ | ⟨c2, rest⟩⟩
  · rfl
  · rfl
  · exact absurd h (by simp)

@[simp] theorem decodeLoop_nil : decodeLoop max [] filename = .ok filename := rfl

theorem decodeLoop_byte (hmax : 1 < max) (h : b ≠ 37) : decodeLoop max (b :: rest) filename =
    putChar filename b >>= decodeLoop (max - 1) rest := by
  have hleft : max - 1 ≠ 0 := Nat.sub_ne_zero_of_lt hmax
  rcases rest with _ | ⟨c1, _ | ⟨c2, rest⟩⟩ <;> exact (if_neg hleft).trans (if_neg h)

theorem decodeLoop_escape (hmax : 1 < max) : decodeLoop max (37 :: c1 :: c2 :: rest) filename =
    putChar filename (strtoul [c1, c2]) >>= decodeLoop (max - 1) rest :=
  (if_neg (Nat.sub_ne_zero_of_lt hmax)).trans (if_pos rfl)

/-- An escape that is cut off takes the loop behind the NUL. -/
theorem decodeLoop_cut (hmax : 1 < max) (h : rest.length < 2) :
    decodeLoop max (37 :: rest) filename = .error .outOfBounds := by
  have hleft : max - 1 ≠ 0 := Nat.sub_ne_zero_of_lt hmax
  rcases rest with _ | ⟨c1, _ | ⟨c2, rest⟩⟩
  · exact (if_neg hleft).trans (if_pos rfl)
  · exact (if_neg hleft).trans (if_pos rfl)
  · exact absurd h (by simp)

/-- A byte is written, and the loop goes on. -/
theorem putChar_bind {α : Type} {k : List UInt8 → Except Abort α} {x : α} :
    (putChar filename b >>= k) = .ok x ↔
      filename.length < filenameSize ∧ k (filename ++ [b]) = .ok x := by
  unfold putChar
  by_cases h : filename.length < filenameSize
  · rw [if_pos h]
    exact (and_iff_right h).symm
  · rw [if_neg h]
    refine ⟨fun hk => ?_, fun hc => absurd hc.1 h⟩
    cases hk

/-- A byte is written in front of what the rest of the loop writes. -/
theorem decodeLoop_step {c : UInt8} (ih : ∀ {filename : List UInt8}, filename.length ≤ filenameSize →
      (decodeLoop max rest filename = .ok out ↔ ∃ bytes, urlDecode rest = some bytes ∧
        filename.length + bytes.length ≤ filenameSize ∧ out = filename ++ bytes)) :
    (putChar filename c >>= decodeLoop max rest) = .ok out ↔
      ∃ bytes, (urlDecode rest).map (c :: ·) = some bytes ∧
        filename.length + bytes.length ≤ filenameSize ∧ out = filename ++ bytes := by
  rw [putChar_bind]
  constructor
  · rintro ⟨hlt, hloop⟩
    obtain ⟨bytes, hbytes, hlength, rfl⟩ := (ih (by rw [List.length_append]; exact hlt)).mp hloop
    rw [List.length_append, List.length_singleton] at hlength
    exact ⟨c :: bytes, by rw [hbytes]; rfl, by rw [List.length_cons]; omega, by simp⟩
  · rintro ⟨bytes, hbytes, hlength, rfl⟩
    obtain ⟨bytes, hrest, rfl⟩ := Option.map_eq_some_iff.mp hbytes
    rw [List.length_cons] at hlength
    refine ⟨by omega, (ih ?_).mpr ⟨bytes, hrest, ?_, by simp⟩⟩ <;>
      rw [List.length_append, List.length_singleton] <;> omega

theorem decodeLoop_iff (hmax : data.length < max) (hfilename : filename.length ≤ filenameSize) :
    decodeLoop max data filename = .ok out ↔ ∃ bytes, urlDecode data = some bytes ∧
      filename.length + bytes.length ≤ filenameSize ∧ out = filename ++ bytes := by
  induction data using Percent.ind generalizing max filename with
  | nil =>
    simp [hfilename, eq_comm]
  | byte b rest hb ih =>
    rw [List.length_cons] at hmax
    rw [decodeLoop_byte (by omega) hb, urlDecode_byte hb]
    exact decodeLoop_step fun h => ih (by omega) h
  | cut =>
    rw [decodeLoop_cut hmax (by decide), urlDecode_cut (by decide)]
    simp
  | cutDigit c =>
    rw [List.length_cons, List.length_singleton] at hmax
    rw [decodeLoop_cut (by omega) (by simp), urlDecode_cut (by simp)]
    simp
  | escape c1 c2 rest ih =>
    rw [List.length_cons, List.length_cons, List.length_cons] at hmax
    rw [decodeLoop_escape (by omega), urlDecode_escape]
    exact decodeLoop_step fun h => ih (by omega) h

/-! ## Decoding -/

/-- Where all escapes are complete, the loop writes what they stand for. -/
theorem urlDecode_of_escapesComplete (h : EscapesComplete l) : urlDecode l = some (percentDecode l) := by
  induction h with
  | nil => rfl
  | byte hb _ ih => rw [urlDecode_byte hb, ih, percentDecode_byte hb]; rfl
  | escape h1 h2 _ ih =>
    rw [urlDecode_escape, ih, percentDecode_escape h1 h2, strtoul_hex h1 h2]
    rfl

/-- What the loop writes is the front of the decoded text only where all escapes are complete: it
writes another byte for the first `%` that is to be kept. -/
theorem escapesComplete_of_prefix (hbytes : urlDecode l = some bytes)
    (hstart : bytes <+: percentDecode l) : EscapesComplete l := by
  induction l using Percent.ind generalizing bytes with
  | nil => exact .nil
  | byte b rest hb ih =>
    rw [urlDecode_byte hb] at hbytes
    rw [percentDecode_byte hb] at hstart
    obtain ⟨bytes, hrest, rfl⟩ := Option.map_eq_some_iff.mp hbytes
    exact .byte hb (ih hrest (List.cons_prefix_cons.mp hstart).2)
  | cut | cutDigit c => cases hbytes
  | escape c1 c2 rest ih =>
    rw [urlDecode_escape] at hbytes
    obtain ⟨bytes, hrest, rfl⟩ := Option.map_eq_some_iff.mp hbytes
    by_cases h : isHexDigit c1 ∧ isHexDigit c2
    · rw [percentDecode_escape h.1 h.2] at hstart
      exact .escape h.1 h.2 (ih hrest (List.cons_prefix_cons.mp hstart).2)
    · rw [percentDecode_bad h] at hstart
      exact absurd (List.cons_prefix_cons.mp hstart).1 (strtoul_ne h)

/-- A query that is not cut off is decoded with the path. -/
theorem not_prefix_of_query (hbytes : urlDecode (l ++ 63 :: rest) = some bytes) :
    ¬ bytes <+: percentDecode l := by
  intro hstart
  induction l using Percent.ind generalizing bytes with
  | nil =>
    rw [List.nil_append, urlDecode_byte (by decide)] at hbytes
    obtain ⟨bytes, -, rfl⟩ := Option.map_eq_some_iff.mp hbytes
    exact List.cons_ne_nil _ _ (List.prefix_nil.mp hstart)
  | byte b l hb ih =>
    rw [List.cons_append, urlDecode_byte hb] at hbytes
    rw [percentDecode_byte hb] at hstart
    obtain ⟨bytes, hrest, rfl⟩ := Option.map_eq_some_iff.mp hbytes
    exact ih hrest (List.cons_prefix_cons.mp hstart).2
  | cut =>
    rcases rest with _ | ⟨c2, rest⟩
    · cases hbytes
    · rw [List.singleton_append, urlDecode_escape] at hbytes
      obtain ⟨bytes, -, rfl⟩ := Option.map_eq_some_iff.mp hbytes
      exact strtoul_ne (fun h => absurd h.1 (by decide)) (List.cons_prefix_cons.mp hstart).1
  | cutDigit c =>
    rw [List.cons_append, List.singleton_append, urlDecode_escape] at hbytes
    obtain ⟨bytes, -, rfl⟩ := Option.map_eq_some_iff.mp hbytes
    exact strtoul_ne (fun h => absurd h.2 (by decide)) (List.cons_prefix_cons.mp hstart).1
  | escape c1 c2 l ih =>
    rw [List.cons_append, List.cons_append, List.cons_append, urlDecode_escape] at hbytes
    obtain ⟨bytes, hrest, rfl⟩ := Option.map_eq_some_iff.mp hbytes
    by_cases h : isHexDigit c1 ∧ isHexDigit c2
    · rw [percentDecode_escape h.1 h.2] at hstart
      exact ih hrest (List.cons_prefix_cons.mp hstart).2
    · rw [percentDecode_bad h] at hstart
      exact strtoul_ne h (List.cons_prefix_cons.mp hstart).1

/-! ## Requests -/

/-- Behind a slash in front. -/
theorem requestFile_slash (rest : List UInt8) : requestFile (47 :: rest) = pathPart (47 :: rest) := by
  cases rest with
  | nil => rfl
  | cons b rest =>
    unfold pathPart
    rw [if_neg (by simp)]
    rfl

theorem requestFile_other (h : uri.head? ≠ some 47) : requestFile uri = uri := by
  cases uri with
  | nil => rfl
  | cons b rest => exact if_neg fun hb => h (by rw [hb]; rfl)

theorem pathPart_other (h : uri.head? ≠ some 47) : pathPart uri = uri.takeWhile (· ≠ 63) := by
  unfold pathPart
  rw [if_neg fun hroot => h (by rw [hroot]; rfl), if_neg h]

/-- What is decoded is the path, where a query is cut off or not there. -/
theorem requestFile_eq (h : uri.head? = some 47 ∨ 63 ∉ uri) : requestFile uri = pathPart uri := by
  by_cases hslash : uri.head? = some 47
  · obtain ⟨rest, rfl⟩ := List.head?_eq_some_iff.mp hslash
    exact requestFile_slash rest
  · have hquery := h.resolve_left hslash
    have hall : ∀ c ∈ uri, decide (c ≠ 63) = true := fun c hc =>
      decide_eq_true fun h63 => hquery (h63 ▸ hc)
    rw [requestFile_other hslash, pathPart_other hslash, List.takeWhile_eq_self_iff.mpr hall]

/-- A URI without a slash in front is decoded with its query. -/
theorem requestFile_of_query (h : uri.head? ≠ some 47) (hquery : 63 ∈ uri) :
    ∃ rest, requestFile uri = pathPart uri ++ 63 :: rest := by
  rw [requestFile_other h, pathPart_other h]
  have hsplit := List.takeWhile_append_dropWhile (p := fun c : UInt8 => decide (c ≠ 63)) (l := uri)
  rcases hrest : uri.dropWhile (· ≠ 63) with _ | ⟨c, rest⟩
  · have := List.dropWhile_eq_nil_iff.mp hrest 63 hquery
    simp at this
  · have hc := List.head?_dropWhile_not (fun c : UInt8 => decide (c ≠ 63)) uri
    rw [hrest] at hc hsplit
    obtain rfl : c = 63 := by simpa using hc
    exact ⟨rest, hsplit.symm⟩

theorem length_requestFile : (requestFile uri).length ≤ uri.length := by
  cases uri with
  | nil => exact le_refl 0
  | cons b rest =>
    unfold requestFile
    dsimp only
    split_ifs
    · simp
    · exact (List.takeWhile_sublist _).length_le.trans (Nat.le_succ _)
    · exact le_refl _

theorem parseRequest_ok_iff (huri : scanUri (.ofBytes line) = some uri)
    (hlength : (requestFile uri).length < maxLine) {req : HttpRequest} :
    parseRequest line = .ok req ↔
      urlDecode (requestFile uri) = some req.filename ∧ req.offset = 0 ∧ req.end' = 0 := by
  unfold parseRequest
  rw [huri]
  dsimp only
  have hloop : ∀ out, decodeLoop maxLine (requestFile uri) [] = .ok out ↔
      urlDecode (requestFile uri) = some out ∧ out.length ≤ filenameSize := fun out => by
    rw [decodeLoop_iff hlength (Nat.zero_le _)]
    constructor
    · rintro ⟨bytes, hbytes, hle, rfl⟩
      exact ⟨hbytes, by simpa using hle⟩
    · rintro ⟨hbytes, hle⟩
      exact ⟨out, hbytes, by simpa using hle, rfl⟩
  constructor
  · intro h
    obtain ⟨filename, hdecode, h⟩ := bind_eq_ok.mp h
    split_ifs at h with hlt
    cases h
    exact ⟨((hloop _).mp hdecode).1, rfl, rfl⟩
  · rintro ⟨hdecode, hoffset, hend⟩
    refine bind_eq_ok.mpr ⟨req.filename, (hloop _).mpr ⟨hdecode, req.length_lt.le⟩, ?_⟩
    rw [dif_pos req.length_lt]
    obtain ⟨filename, hlt, offset, end'⟩ := req
    cases hoffset
    cases hend
    rfl

theorem length_scanUri {buf : CString} (h : scanUri buf = some uri) : uri.length ≤ buf.length := by
  have hword : ∀ {str word rest : List UInt8}, scanWord str = some (word, rest) →
      word.length ≤ str.length ∧ rest.length ≤ str.length := by
    intro str word rest hscan
    unfold scanWord at hscan
    dsimp only at hscan
    split_ifs at hscan
    cases hscan
    have hskip := (List.dropWhile_sublist (p := isSpace) (l := str)).length_le
    exact ⟨(List.takeWhile_sublist _).length_le.trans hskip,
      (List.dropWhile_sublist _).length_le.trans hskip⟩
  obtain ⟨⟨method, str⟩, hmethod, h⟩ := Option.bind_eq_some_iff.mp h
  obtain ⟨⟨uri', rest⟩, huri, h⟩ := Option.bind_eq_some_iff.mp h
  cases h
  exact (hword huri).1.trans (hword hmethod).2

/-- **Requests.** Of the lines that fit the buffer, exactly those are parsed exactly that have a URI,
which starts with a slash or has no query, in whose path two digits follow every `%`, and whose decoded
path fits the filename. -/
theorem parsesExactly_iff (line : List UInt8) (hline : line.length < maxLine) : ParsesExactly line ↔
    ∃ uri, scanUri (.ofBytes line) = some uri ∧ (uri.head? = some 47 ∨ 63 ∉ uri) ∧
      EscapesComplete (pathPart uri) ∧ (percentDecode (pathPart uri)).length < filenameSize := by
  have hlength : ∀ {uri}, scanUri (.ofBytes line) = some uri → (requestFile uri).length < maxLine :=
    fun huri => (length_requestFile.trans (length_scanUri huri)).trans_lt
      ((List.takeWhile_sublist _).length_le.trans_lt hline)
  constructor
  · rintro ⟨uri, req, huri, hparse, hfilename⟩
    obtain ⟨hdecode, -⟩ := (parseRequest_ok_iff huri (hlength huri)).mp hparse
    have hstart : req.filename <+: percentDecode (pathPart uri) := by
      rw [hfilename]
      exact List.take_prefix _ _
    have hquery : uri.head? = some 47 ∨ 63 ∉ uri := by
      by_contra hnot
      obtain ⟨hslash, hmark⟩ := not_or.mp hnot
      obtain ⟨rest, hfile⟩ := requestFile_of_query hslash (not_not.mp hmark)
      rw [hfile] at hdecode
      exact not_prefix_of_query hdecode hstart
    rw [requestFile_eq hquery] at hdecode
    have hcomplete := escapesComplete_of_prefix hdecode hstart
    rw [urlDecode_of_escapesComplete hcomplete] at hdecode
    have hlt := req.length_lt
    rw [← Option.some.inj hdecode] at hlt
    exact ⟨uri, huri, hquery, hcomplete, hlt⟩
  · rintro ⟨uri, huri, hquery, hcomplete, hlt⟩
    refine ⟨uri, ⟨percentDecode (pathPart uri), hlt, 0, 0⟩, huri, ?_, ?_⟩
    · rw [parseRequest_ok_iff huri (hlength huri), requestFile_eq hquery]
      exact ⟨urlDecode_of_escapesComplete hcomplete, rfl, rfl⟩
    · exact (List.take_of_length_le (Nat.le_sub_one_of_lt hlt)).symm

namespace RequestExample

/-- `GET /%41?q HTTP/1.0` -/
def withEscape : List UInt8 :=
  [71, 69, 84, 32, 47, 37, 52, 49, 63, 113, 32, 72, 84, 84, 80, 47, 49, 46, 48, 10]

/-- `GET /a% HTTP/1.0` -/
def cutOff : List UInt8 := [71, 69, 84, 32, 47, 97, 37, 32, 72, 84, 84, 80, 47, 49, 46, 48, 10]

end RequestExample

theorem parsesExactly_iff_escape : ParsesExactly RequestExample.withEscape ↔
    ∃ uri, scanUri (.ofBytes RequestExample.withEscape) = some uri ∧ (uri.head? = some 47 ∨ 63 ∉ uri) ∧
      EscapesComplete (pathPart uri) ∧ (percentDecode (pathPart uri)).length < filenameSize :=
  parsesExactly_iff RequestExample.withEscape (by decide)

/-- Behind a `%` at its end the URI is read beyond its NUL. -/
theorem not_parsesExactly_cutOff : parseRequest RequestExample.cutOff = .error .outOfBounds ∧
    ¬ ParsesExactly RequestExample.cutOff := by
  have hparse : parseRequest RequestExample.cutOff = .error .outOfBounds := rfl
  refine ⟨hparse, ?_⟩
  rintro ⟨uri, req, -, hok, -⟩
  rw [hparse] at hok
  cases hok

end DartSync
