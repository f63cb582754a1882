import DartSync.Library.Buffer
import Mathlib.Data.List.TakeDrop
import Mathlib.Data.Int.Notation

/-!
# Robust input and output

The tracker's web page reads a request through a buffer and writes its answer until all of it has
gone out. However the data arrives, and however often a call is interrupted, the lines that
`rio_readlineb` reads are those of the stream (`rio_readlineb_lines`), and what `written` sends is
what it is given, up to the place where a call fails (`written_sends`).
-/

namespace DartSync

open Buffer

/-- `RIO_BUFSIZE` -/
def rioBufsize : ℕ := 1024

/-- What a `read` or a `write` comes to: it is interrupted by a signal, it fails, or it goes through for
no more than so many bytes and one. -/
inductive IoResult
  | interrupted
  | failed
  | upTo (k : ℕ)
  deriving DecidableEq

/-- A descriptor that is read: what it still has, and what the coming reads come to. Those after them
go through. -/
structure ReadFd where
  incoming : List UInt8
  results : List IoResult

/-- `rio_t`; the pointer is an offset. -/
structure Rio where
  fd : ReadFd
  rioCnt : ℤ
  rioBufptr : ℕ
  rioBuf : List UInt8

namespace Rio

/-- `rio_readinitb` -/
def readinitb (rioBuf : List UInt8) (fd : ReadFd) : Rio := ⟨fd, 0, 0, rioBuf⟩

/-- A read of `n` bytes into the buffer, with the return value of `rio_read` if it returns here. -/
def receive (rp : Rio) (n : ℕ) (results : List IoResult) : Option ℤ × Rio :=
  let data := rp.fd.incoming.take n
  if data = [] then (some 0, { rp with fd := ⟨rp.fd.incoming, results⟩, rioCnt := 0 })
  else (none, ⟨⟨rp.fd.incoming.drop n, results⟩, data.length, 0, splice rp.rioBuf 0 data⟩)

/-- The loop of `rio_read` that refills the buffer. -/
def refill (rp : Rio) : List IoResult → Option ℤ × Rio
  | [] => rp.receive rioBufsize []
  | .interrupted :: results => refill { rp with rioCnt := -1 } results
  | .failed :: results =>
    (some (-1), { rp with fd := ⟨rp.fd.incoming, results⟩, rioCnt := -1 })
  | .upTo k :: results => rp.receive (min (k + 1) rioBufsize) results

/-- `rio_read`: what it returns, and the bytes that it copies. -/
def read (rp : Rio) (n : ℕ) : ℤ × List UInt8 × Rio :=
  match if rp.rioCnt ≤ 0 then rp.refill rp.fd.results else (none, rp) with
  | (some rc, rp) => (rc, [], rp)
  | (none, rp) =>
    let cnt := if rp.rioCnt < n then rp.rioCnt.toNat else n
    (cnt, slice rp.rioBuf rp.rioBufptr cnt,
      { rp with rioBufptr := rp.rioBufptr + cnt, rioCnt := rp.rioCnt - cnt })

/-- What `rio_readlineb` returns, and the text that it has ended with a NUL. -/
structure Line where
  ret : ℤ
  text : Option (List UInt8)
  deriving DecidableEq

/-- The loop of `rio_readlineb`, with `left` turns left. -/
def readlineLoop : ℕ → ℕ → List UInt8 → Rio → Line × Rio
  | 0, n, text, rp => (⟨n, some text⟩, rp)
  | left + 1, n, text, rp =>
    match rp.read 1 with
    | (rc, c, rp) =>
      if rc = 1 then
        if c = [10] then (⟨n, some (text ++ c)⟩, rp)
        else readlineLoop left (n + 1) (text ++ c) rp
      else if rc = 0 then
        if n = 1 then (⟨0, none⟩, rp) else (⟨n, some text⟩, rp)
      else (⟨-1, none⟩, rp)

/-- `rio_readlineb` -/
def readlineb (rp : Rio) (maxlen : ℕ) : Line × Rio := readlineLoop (maxlen - 1) 1 [] rp

/-- So many calls of `rio_readlineb`. -/
def readLines (maxlen : ℕ) : ℕ → Rio → List Line × Rio
  | 0, rp => ([], rp)
  | k + 1, rp =>
    let (line, rp) := rp.readlineb maxlen
    let (lines, rp) := readLines maxlen k rp
    (line :: lines, rp)

/-! ## Lines of a stream -/

/-- The first line with its newline, of at most `max` bytes, and what is behind it. -/
def cutLine : ℕ → List UInt8 → List UInt8 × List UInt8
  | 0, data => ([], data)
  | _ + 1, [] => ([], [])
  | max + 1, b :: data =>
    if b = 10 then ([b], data)
    else
      let (line, rest) := cutLine max data
      (b :: line, rest)

/-- So many lines, one after the other. -/
def cutLines (max : ℕ) : ℕ → List UInt8 → List (List UInt8) × List UInt8
  | 0, data => ([], data)
  | k + 1, data =>
    let (line, rest) := cutLine max data
    let (lines, rest) := cutLines max k rest
    (line :: lines, rest)

/-- What `rio_readlineb` makes of a line. It counts one too many where the line has no newline. -/
def Line.of (line : List UInt8) : Line where
  ret := if line = [] then 0 else if line.getLast? = some 10 then line.length else line.length + 1
  text := if line = [] then none else some line

variable {rp : Rio} {data text line rest : List UInt8} {b : UInt8} {n max left maxlen k : ℕ}

@[simp] theorem cutLine_nil (max : ℕ) : cutLine max [] = ([], []) := by
  cases max <;> rfl

theorem cutLine_cons (max : ℕ) (b : UInt8) (data : List UInt8) : cutLine (max + 1) (b :: data) =
    if b = 10 then ([b], data) else (b :: (cutLine max data).1, (cutLine max data).2) := rfl

/-- Nothing is lost. -/
theorem cutLine_append (max : ℕ) (data : List UInt8) :
    (cutLine max data).1 ++ (cutLine max data).2 = data := by
  induction max generalizing data with
  | zero => rfl
  | succ max ih =>
    cases data with
    | nil => rfl
    | cons b data =>
      rw [cutLine_cons]
      split_ifs
      · rfl
      · exact congrArg (b :: ·) (ih data)

theorem cutLines_append (max k : ℕ) (data : List UInt8) :
    (cutLines max k data).1.flatten ++ (cutLines max k data).2 = data := by
  induction k generalizing data with
  | zero => rfl
  | succ k ih =>
    rw [cutLines]
    dsimp only
    rw [List.flatten_cons, List.append_assoc, ih, cutLine_append]

/-- There is room for the NUL. -/
theorem cutLine_length (max : ℕ) (data : List UInt8) : (cutLine max data).1.length ≤ max := by
  induction max generalizing data with
  | zero => exact Nat.le_refl 0
  | succ max ih =>
    cases data with
    | nil => exact Nat.zero_le _
    | cons b data =>
      rw [cutLine_cons]
      split_ifs
      · exact Nat.succ_le_succ (Nat.zero_le max)
      · exact Nat.succ_le_succ (ih data)

theorem cutLines_length {max : ℕ} (hline : line ∈ (cutLines max k data).1) : line.length ≤ max := by
  induction k generalizing data with
  | zero => cases hline
  | succ k ih =>
    rcases List.mem_cons.mp hline with rfl | hline
    · exact cutLine_length max data
    · exact ih hline

/-- A line that fits is cut off. -/
theorem cutLine_line (hline : 10 ∉ line) (hmax : line.length < max) :
    cutLine max (line ++ 10 :: rest) = (line ++ [10], rest) := by
  induction line generalizing max with
  | nil =>
    obtain ⟨max, rfl⟩ := Nat.exists_eq_add_of_lt hmax
    simp [cutLine_cons]
  | cons b line ih =>
    rw [List.mem_cons, not_or] at hline
    cases max with
    | zero => cases hmax
    | succ max =>
      rw [List.cons_append, cutLine_cons, if_neg (Ne.symm hline.1),
        ih hline.2 (Nat.lt_of_succ_lt_succ hmax)]
      rfl

/-! ## Reading -/

/-- No read fails, and this is still to be read: what is left in the buffer, and what is still to
come. -/
structure Holds (rp : Rio) (data : List UInt8) : Prop where
  reliable : .failed ∉ rp.fd.results
  length : rp.rioBuf.length = rioBufsize
  inBounds : rp.rioBufptr + rp.rioCnt.toNat ≤ rioBufsize
  unread : slice rp.rioBuf rp.rioBufptr rp.rioCnt.toNat ++ rp.fd.incoming = data

theorem holds_readinitb {fd : ReadFd} {rioBuf : List UInt8} (hlength : rioBuf.length = rioBufsize)
    (hfd : .failed ∉ fd.results) : (readinitb rioBuf fd).Holds fd.incoming where
  reliable := hfd
  length := hlength
  inBounds := Nat.zero_le _
  unread := by simp [readinitb, slice]

/-- A read that goes through fills the buffer, unless the stream is at its end. -/
theorem holds_receive {results : List IoResult} (hlength : rp.rioBuf.length = rioBufsize)
    (hptr : rp.rioBufptr ≤ rioBufsize) (hresults : .failed ∉ results) (hpos : 0 < n) (hn : n ≤ rioBufsize) :
    (rp.fd.incoming = [] ∧ ∃ rp', rp.receive n results = (some 0, rp') ∧ rp'.Holds []) ∨
      ∃ rp', rp.receive n results = (none, rp') ∧ 0 < rp'.rioCnt ∧ rp'.Holds rp.fd.incoming := by
  unfold receive
  dsimp only
  have htake : (rp.fd.incoming.take n).length ≤ rioBufsize :=
    Nat.le_trans (List.length_take_le _ _) hn
  split_ifs with hdata
  · have hnil : rp.fd.incoming = [] := by
      rcases List.take_eq_nil_iff.mp hdata with h | h
      · omega
      · exact h
    exact Or.inl ⟨hnil, _, rfl, hresults, hlength, by simpa using hptr, by simp [slice, hnil]⟩
  · have hlen := List.length_pos_iff.mpr hdata
    refine Or.inr ⟨_, rfl, Int.natCast_pos.mpr hlen, hresults, ?_, ?_, ?_⟩
    · show (splice rp.rioBuf 0 _).length = rioBufsize
      rw [length_splice (by omega), hlength]
    · simpa using htake
    · show slice (splice rp.rioBuf 0 _) 0 ((rp.fd.incoming.take n).length : ℤ).toNat ++ _ = _
      rw [Int.toNat_natCast]
      unfold slice splice
      rw [List.take_zero, List.nil_append, List.drop_zero, List.take_left, List.take_append_drop]

/-- The loop ends with a full buffer or at the end of the stream. -/
theorem holds_refill (hlength : rp.rioBuf.length = rioBufsize)
    (hptr : rp.rioBufptr ≤ rioBufsize) {results : List IoResult}
    (hresults : .failed ∉ results) :
    (rp.fd.incoming = [] ∧ ∃ rp', rp.refill results = (some 0, rp') ∧ rp'.Holds []) ∨
      ∃ rp', rp.refill results = (none, rp') ∧ 0 < rp'.rioCnt ∧ rp'.Holds rp.fd.incoming := by
  induction results generalizing rp with
  | nil => exact holds_receive hlength hptr hresults (by decide) (Nat.le_refl _)
  | cons result results ih =>
    rw [List.mem_cons, not_or] at hresults
    cases result with
    | interrupted =>
      rw [refill]
      exact @ih ⟨rp.fd, -1, rp.rioBufptr, rp.rioBuf⟩ hlength hptr hresults.2
    | failed => exact absurd rfl hresults.1
    | upTo k =>
      rw [refill]
      exact holds_receive hlength hptr hresults.2 (Nat.lt_min.mpr ⟨Nat.succ_pos k, by decide⟩)
        (Nat.min_le_right _ _)

/-- **A read.** It copies the next bytes, at least one unless the stream is at its end. -/
theorem Holds.read (h : rp.Holds data) (hn : n ≠ 0) :
    (data = [] ∧ ∃ rp', rp.read n = (0, [], rp') ∧ rp'.Holds []) ∨
      ∃ cnt rp', 1 ≤ cnt ∧ cnt ≤ n ∧ cnt ≤ data.length ∧ rp.read n = ((cnt : ℤ), data.take cnt, rp') ∧
        rp'.Holds (data.drop cnt) := by
  -- a buffer that has something to give
  have hcopy : ∀ rp : Rio, 0 < rp.rioCnt → rp.Holds data → ∃ cnt rp', 1 ≤ cnt ∧ cnt ≤ n ∧
      cnt ≤ data.length ∧ (((if rp.rioCnt < n then rp.rioCnt.toNat else n : ℕ) : ℤ),
        slice rp.rioBuf rp.rioBufptr (if rp.rioCnt < n then rp.rioCnt.toNat else n),
        ({ rp with
          rioBufptr := rp.rioBufptr + if rp.rioCnt < n then rp.rioCnt.toNat else n
          rioCnt := rp.rioCnt - (if rp.rioCnt < n then rp.rioCnt.toNat else n : ℕ) } : Rio)) =
        ((cnt : ℤ), data.take cnt, rp') ∧ rp'.Holds (data.drop cnt) := by
    intro rp hpos h
    obtain ⟨cnt, hcnt⟩ : ∃ cnt, cnt = if rp.rioCnt < n then rp.rioCnt.toNat else n := ⟨_, rfl⟩
    rw [← hcnt]
    have hle : 1 ≤ cnt ∧ cnt ≤ n ∧ cnt ≤ rp.rioCnt.toNat := by
      split_ifs at hcnt <;> omega
    have hunread := h.unread
    have hsplit := slice_append_slice rp.rioBuf rp.rioBufptr cnt (rp.rioCnt.toNat - cnt)
    rw [Nat.add_sub_cancel' hle.2.2] at hsplit
    have hlength : (slice rp.rioBuf rp.rioBufptr cnt).length = cnt :=
      length_slice (by have := h.length; have := h.inBounds; omega)
    rw [← hsplit, List.append_assoc] at hunread
    have hdata : cnt ≤ data.length := by
      rw [← hunread, List.length_append, hlength]
      omega
    have hnext : (rp.rioCnt - cnt).toNat = rp.rioCnt.toNat - cnt := by omega
    refine ⟨cnt, ⟨rp.fd, rp.rioCnt - cnt, rp.rioBufptr + cnt, rp.rioBuf⟩, hle.1, hle.2.1, hdata, ?_,
      h.reliable, h.length, ?_, ?_⟩
    · rw [← hunread, List.take_left' hlength]
    · show rp.rioBufptr + cnt + (rp.rioCnt - cnt).toNat ≤ rioBufsize
      have := h.inBounds
      omega
    · show slice rp.rioBuf (rp.rioBufptr + cnt) (rp.rioCnt - cnt).toNat ++ rp.fd.incoming = _
      rw [hnext, ← hunread, List.drop_left' hlength]
  unfold Rio.read
  split_ifs with hempty
  · have hincoming : rp.fd.incoming = data := by
      have := h.unread
      rwa [Int.toNat_of_nonpos hempty, slice, List.take_zero, List.nil_append] at this
    have hptr : rp.rioBufptr ≤ rioBufsize := by have := h.inBounds; omega
    rcases holds_refill h.length hptr h.reliable with ⟨hnil, rp', hrefill, hholds⟩ |
      ⟨rp', hrefill, hpos, hholds⟩
    · rw [hrefill]
      exact Or.inl ⟨hincoming.symm.trans hnil, rp', rfl, hholds⟩
    · rw [hrefill]
      rw [hincoming] at hholds
      exact Or.inr (hcopy rp' hpos hholds)
  · exact Or.inr (hcopy rp (by omega) h)

/-! ## Lines that are read -/

/-- A line that has no newline. -/
theorem Line.of_open (hnil : text ≠ []) (hline : 10 ∉ text) :
    Line.of text = ⟨text.length + 1, some text⟩ := by
  unfold Line.of
  rw [if_neg hnil, if_neg hnil, if_neg fun hlast => hline (List.mem_of_getLast? hlast)]

/-- A line that has. -/
theorem Line.of_newline (text : List UInt8) :
    Line.of (text ++ [10]) = ⟨text.length + 1, some (text ++ [10])⟩ := by
  unfold Line.of
  have hnil : text ++ [10] ≠ [] := List.append_ne_nil_of_right_ne_nil _ (List.cons_ne_nil _ _)
  rw [if_neg hnil, if_neg hnil, if_pos (by simp), List.length_append]
  rfl

/-- The loop reads what there is of the line. -/
theorem Holds.readlineLoop (h : rp.Holds data) (hline : 10 ∉ text) (hleft : left ≠ 0 ∨ text ≠ []) :
    ∃ rp', rp.readlineLoop left (text.length + 1) text =
      (Line.of (text ++ (cutLine left data).1), rp') ∧ rp'.Holds (cutLine left data).2 := by
  induction left generalizing rp data text with
  | zero =>
    have hnil := hleft.resolve_left (absurd rfl)
    refine ⟨rp, ?_, h⟩
    show _ = (Line.of (text ++ []), rp)
    rw [List.append_nil, Line.of_open hnil hline]
    rfl
  | succ left ih =>
    unfold Rio.readlineLoop
    rcases h.read Nat.one_ne_zero with ⟨rfl, rp', hread, hholds⟩ |
      ⟨cnt, rp', hpos, hle, hdata, hread, hholds⟩
    · -- the end of the stream
      rw [hread]
      dsimp only
      rw [if_neg (by decide), if_pos rfl, cutLine_nil, List.append_nil]
      by_cases hnil : text = []
      · rw [if_pos (by rw [hnil]; rfl)]
        exact ⟨rp', by rw [hnil]; rfl, hholds⟩
      · have hlength := List.length_pos_iff.mpr hnil
        rw [if_neg (by omega), Line.of_open hnil hline]
        exact ⟨rp', rfl, hholds⟩
    · obtain rfl : cnt = 1 := Nat.le_antisymm hle hpos
      rcases data with _ | ⟨b, data⟩
      · exact absurd hdata (by decide)
      rw [hread]
      dsimp only [List.take_succ_cons, List.take_zero, List.drop_succ_cons, List.drop_zero]
      rw [if_pos Int.natCast_one]
      by_cases hb : b = 10
      · subst hb
        rw [if_pos rfl, cutLine_cons, if_pos rfl, Line.of_newline]
        exact ⟨rp', rfl, hholds⟩
      · rw [if_neg fun hc => hb (List.cons.inj hc).1, cutLine_cons, if_neg hb]
        have hline' : 10 ∉ text ++ [b] := by
          rw [List.mem_append, List.mem_singleton, not_or]
          exact ⟨hline, Ne.symm hb⟩
        obtain ⟨rp'', hloop, hrest⟩ := ih hholds hline' (Or.inr (by simp))
        refine ⟨rp'', ?_, hrest⟩
        rw [List.length_append, List.append_assoc] at hloop
        exact hloop

/-- **A line.** It is the next one of the stream, however the data comes and however often a read is
interrupted. -/
theorem Holds.readlineb (h : rp.Holds data) (hmaxlen : 2 ≤ maxlen) :
    ∃ rp', rp.readlineb maxlen = (Line.of (cutLine (maxlen - 1) data).1, rp') ∧
      rp'.Holds (cutLine (maxlen - 1) data).2 :=
  h.readlineLoop (List.not_mem_nil) (Or.inl (by omega))

/-- Calls of `rio_readlineb` read one line after the other. -/
theorem Holds.readLines (h : rp.Holds data) (hmaxlen : 2 ≤ maxlen) (k : ℕ) :
    ∃ rp', rp.readLines maxlen k = ((cutLines (maxlen - 1) k data).1.map Line.of, rp') ∧
      rp'.Holds (cutLines (maxlen - 1) k data).2 := by
  induction k generalizing rp data with
  | zero => exact ⟨rp, rfl, h⟩
  | succ k ih =>
    obtain ⟨rp', hline, hrest⟩ := h.readlineb hmaxlen
    obtain ⟨rp'', hlines, hrest'⟩ := ih hrest
    refine ⟨rp'', ?_, hrest'⟩
    rw [Rio.readLines, hline]
    dsimp only
    rw [hlines]
    rfl

/-- **The lines of a stream.** Calls of `rio_readlineb` read its lines in their order, each with room
for its NUL, and nothing of the stream is lost or read twice. -/
theorem rio_readlineb_lines (fd : ReadFd) (rioBuf : List UInt8) (maxlen k : ℕ)
    (hlength : rioBuf.length = rioBufsize) (hfd : .failed ∉ fd.results) (hmaxlen : 2 ≤ maxlen) :
    ∃ lines rest rp', cutLines (maxlen - 1) k fd.incoming = (lines, rest) ∧
      (readinitb rioBuf fd).readLines maxlen k = (lines.map Line.of, rp') ∧ rp'.Holds rest ∧
      lines.flatten ++ rest = fd.incoming ∧ ∀ line ∈ lines, line.length < maxlen := by
  obtain ⟨rp', hlines, hrest⟩ := (holds_readinitb hlength hfd).readLines hmaxlen k
  refine ⟨_, _, rp', rfl, hlines, hrest, cutLines_append _ _ _, fun line hline => ?_⟩
  have := cutLines_length hline
  omega

/-- `ab`, a newline and `c`, one byte at a time and with an interrupted read in between. -/
def bytewise : ReadFd := ⟨[97, 98, 10, 99], [.upTo 0, .interrupted, .upTo 0, .upTo 0]⟩

theorem rio_readlineb_lines_bytewise : ∃ lines rest rp',
    cutLines 1023 3 bytewise.incoming = (lines, rest) ∧
      (readinitb (List.replicate 1024 0) bytewise).readLines 1024 3 = (lines.map Line.of, rp') ∧
      rp'.Holds rest ∧ lines.flatten ++ rest = bytewise.incoming ∧ ∀ line ∈ lines, line.length < 1024 :=
  rio_readlineb_lines bytewise (List.replicate 1024 0) 1024 3 List.length_replicate (by decide)
    (by decide)

end Rio

/-! ## Writing -/

/-- A descriptor that is written: what has gone out, and what the coming writes come to. Those after
them go through. -/
structure WriteFd where
  sent : List UInt8
  results : List IoResult

/-- The loop of `written`, with the bytes that are left. -/
def writtenLoop (n : ℕ) : List IoResult → List UInt8 → List UInt8 → ℤ × WriteFd
  | [], bufp, sent => (n, ⟨sent ++ bufp, []⟩)
  | result :: results, bufp, sent =>
    if bufp = [] then (n, ⟨sent, result :: results⟩)
    else match result with
      | .interrupted => writtenLoop n results bufp sent
      | .failed => (-1, ⟨sent, results⟩)
      | .upTo k => writtenLoop n results (bufp.drop (k + 1)) (sent ++ bufp.take (k + 1))

/-- `written` -/
def written (fd : WriteFd) (usrbuf : List UInt8) : ℤ × WriteFd :=
  writtenLoop usrbuf.length fd.results usrbuf fd.sent

theorem writtenLoop_sends (n : ℕ) (results : List IoResult) (bufp sent : List UInt8) :
    writtenLoop n results bufp sent = (↑n, ⟨sent ++ bufp, (writtenLoop n results bufp sent).2.results⟩) ∨
      .failed ∈ results ∧ ∃ m < bufp.length, writtenLoop n results bufp sent =
        (-1, ⟨sent ++ bufp.take m, (writtenLoop n results bufp sent).2.results⟩) := by
  induction results generalizing bufp sent with
  | nil => exact Or.inl rfl
  | cons result results ih =>
    unfold writtenLoop
    by_cases hnil : bufp = []
    · rw [if_pos hnil, hnil, List.append_nil]
      exact Or.inl rfl
    rw [if_neg hnil]
    cases result with
    | interrupted => exact (ih _ _).imp_right (And.imp_left (List.mem_cons_of_mem _))
    | failed =>
      refine Or.inr ⟨List.mem_cons_self, 0, List.length_pos_iff.mpr hnil, ?_⟩
      rw [List.take_zero, List.append_nil]
    | upTo k =>
      rcases ih (bufp.drop (k + 1)) (sent ++ bufp.take (k + 1)) with h | ⟨hfailed, m, hm, h⟩
      · rw [List.append_assoc, List.take_append_drop] at h
        exact Or.inl h
      · rw [List.length_drop] at hm
        rw [List.append_assoc, ← List.take_add] at h
        exact Or.inr ⟨List.mem_cons_of_mem _ hfailed, k + 1 + m, by omega, h⟩

/-- What has gone out of a text: all of it, unless a write fails, and else its front. -/
def Emits (out : WriteFd) (text : List UInt8) (out' : WriteFd) : Prop :=
  out'.sent = out.sent ++ text ∨
    .failed ∈ out.results ∧ ∃ m < text.length, out'.sent = out.sent ++ text.take m

/-- **Writing.** What `written` returns says whether everything has gone out. -/
theorem written_sends (out : WriteFd) (usrbuf : List UInt8) :
    Emits out usrbuf (written out usrbuf).2 ∧
      ((written out usrbuf).1 = usrbuf.length ↔ (written out usrbuf).2.sent = out.sent ++ usrbuf) := by
  unfold written Emits
  rcases writtenLoop_sends usrbuf.length out.results usrbuf out.sent with h | ⟨hfailed, m, hm, h⟩
  · rw [h]
    exact ⟨Or.inl rfl, iff_of_true rfl rfl⟩
  · rw [h]
    refine ⟨Or.inr ⟨hfailed, m, hm, rfl⟩, iff_of_false (by simp) fun hsent => ?_⟩
    have := congrArg List.length (List.append_cancel_left hsent)
    rw [List.length_take] at this
    omega

end DartSync
