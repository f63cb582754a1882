import DartSync.Library.Decimal
import DartSync.Tracker.ParseRequest
import DartSync.Tracker.Rio

/-!
# The web page

The tracker answers one request on each connection. Whatever name a browser asks for, encoded as it
likes, and however its line arrives, this is the name that is opened (`process_answers`). The answer
for a file announces its size, but none of the file is sent.
-/

namespace DartSync

open Percent

/-- The bytes of a literal. -/
def ascii (s : String) : List UInt8 := s.toList.map Char.toUInt8

/-- What `open` and `fstat` say of a path; the size is `st_size`. -/
inductive Opened
  | missing
  | regular (size : Fin (2 ^ 63))
  | directory
  | other

/-- `meme_types` -/
def memeTypes : List (List UInt8 × List UInt8) :=
  [(ascii ".css", ascii "text/css"), (ascii ".gif", ascii "image/gif"),
    (ascii ".htm", ascii "text/html"), (ascii ".html", ascii "text/html"),
    (ascii ".jpeg", ascii "image/jpeg"), (ascii ".jpg", ascii "image/jpeg"),
    (ascii ".ico", ascii "image/x-icon"), (ascii ".js", ascii "application/javascript"),
    (ascii ".pdf", ascii "application/pdf"), (ascii ".mp4", ascii "video/mp4"),
    (ascii ".png", ascii "image/png"), (ascii ".svg", ascii "image/svg+xml"),
    (ascii ".xml", ascii "text/xml")]

/-- `default_mime_type` -/
def defaultMimeType : List UInt8 := ascii "text/plain"

/-- `strrchr` -/
def strrchr (c : UInt8) : List UInt8 → Option (List UInt8)
  | [] => none
  | b :: rest => (strrchr c rest).or (if b = c then some (b :: rest) else none)

/-- `get_mime_type` -/
def getMimeType (filename : CString) : List UInt8 :=
  match strrchr 46 filename.bytes with
  | none => defaultMimeType
  | some dot => (memeTypes.lookup dot).getD defaultMimeType

/-- `%lu` of a number that is cast to `unsigned long`. -/
def unsignedLong (i : ℤ) : List UInt8 := Decimal.ofNat (i % 2 ^ 64).toNat

/-- A text that is printed into a buffer of this size and then written. -/
def send (size : ℕ) (fd : WriteFd) (buf : List UInt8) : Except Abort WriteFd :=
  if buf.length < size then .ok (written fd buf).2 else .error .outOfBounds

/-- The text that `client_error` makes. -/
def errorText (status : ℤ) (msg longmsg : List UInt8) : List UInt8 :=
  (ascii "HTTP/1.1 " ++ Decimal.ofInt status ++ ascii " " ++ msg ++ ascii "\r\n") ++
  (ascii "Content-length: " ++ unsignedLong longmsg.length ++ ascii "\r\n\r\n") ++ longmsg

/-- `client_error` -/
def clientError (fd : WriteFd) (status : ℤ) (msg longmsg : List UInt8) : Except Abort WriteFd :=
  send maxLine fd (errorText status msg longmsg)

/-- The text that `serve_static` makes. -/
def staticHeader (req : HttpRequest) (totalSize : ℕ) : List UInt8 :=
  (if 0 < req.offset then
    ascii "HTTP/1.1 206 Partial\r\n" ++ (ascii "Content-Range: bytes " ++ unsignedLong req.offset ++
      ascii "-" ++ unsignedLong req.end' ++ ascii "/" ++ unsignedLong totalSize ++ ascii "\r\n")
  else ascii "HTTP/1.1 200 OK\r\nAccept-Ranges: bytes\r\n") ++
  ascii "Cache-Control: no-cache\r\n" ++
  (ascii "Content-length: " ++ unsignedLong (req.end' - req.offset) ++ ascii "\r\n") ++
  (ascii "Content-type: " ++ getMimeType (.ofBytes req.filename) ++ ascii "\r\n\r\n")

/-- `serve_static`. The loop that is to send the file closes the connection and ends. -/
def serveStatic (outFd : WriteFd) (req : HttpRequest) (totalSize : ℕ) : Except Abort WriteFd :=
  send 256 outFd (staticHeader req totalSize)

/-- `parse_request`. Without a line `buf` is what it was before. -/
def readRequest (rioBuf : List UInt8) (fd : ReadFd) : Except Abort HttpRequest :=
  match ((Rio.readinitb rioBuf fd).readlineb maxLine).1.text with
  | none => .error .uninitialized
  | some line => parseRequest line

/-- `process`, with what it finds in the file system. The page of a directory is left open: it shows
the tables of the main thread. -/
def process (openFile : CString → Opened) (handleDirectoryRequest : WriteFd → CString → WriteFd)
    (rioBuf : List UInt8) (fd : ReadFd) (out : WriteFd) : Except Abort WriteFd := do
  let req ← readRequest rioBuf fd
  let filename := CString.ofBytes req.filename
  match openFile filename with
  | .missing => clientError out 404 (ascii "Not found") (ascii "File not found")
  | .regular size =>
    serveStatic out (if req.end' = 0 then { req with end' := size } else req) size
  | .directory => return handleDirectoryRequest out filename
  | .other => clientError out 400 (ascii "Error") (ascii "Unknow Error")

variable {l rest uri word line rioBuf : List UInt8} {safe : UInt8 → Bool} {name : CString}

/-! ## Answers -/

theorem getMimeType_length (filename : CString) : (getMimeType filename).length ≤ 22 := by
  have hall : ∀ type ∈ memeTypes, type.2.length ≤ 22 := by decide
  unfold getMimeType
  cases strrchr 46 filename.bytes with
  | none => decide
  | some dot =>
    dsimp only
    cases htype : memeTypes.lookup dot with
    | none => decide
    | some type =>
      obtain ⟨l₁, l₂, hmem, -⟩ := List.lookup_eq_some_iff.mp htype
      exact hall (dot, type) (by rw [hmem]; simp)

theorem unsignedLong_length (i : ℤ) : (unsignedLong i).length ≤ 20 :=
  Decimal.length_ofNat (by decide) (by omega)

/-- The header fits its buffer, whatever is asked for. -/
theorem serveStatic_ok (outFd : WriteFd) (req : HttpRequest) (totalSize : ℕ) :
    serveStatic outFd req totalSize = .ok (written outFd (staticHeader req totalSize)).2 := by
  have hmime := getMimeType_length (.ofBytes req.filename)
  have hsize := unsignedLong_length (req.end' - req.offset)
  have hoffset := unsignedLong_length req.offset
  have hend := unsignedLong_length req.end'
  have htotal := unsignedLong_length totalSize
  have hlength : (staticHeader req totalSize).length < 256 := by
    unfold staticHeader
    split_ifs <;> simp [ascii] <;> omega
  exact if_pos hlength

/-! ## Requests -/

/-- What a browser sends first: `GET`, the name with its bytes escaped, the version. -/
def requestLine (safe : UInt8 → Bool) (name : CString) : List UInt8 :=
  ascii "GET /" ++ percentEncode safe name.bytes ++ ascii " HTTP/1.1\r"

/-- Nothing that is kept as it is has a meaning in a request line. -/
structure Unreserved (safe : UInt8 → Bool) : Prop where
  isSpace : ∀ b, safe b = true → isSpace b = false
  nul : safe 0 = false
  query : safe 63 = false
  percent : safe 37 = false

theorem scanWord_word (hnil : word ≠ []) (hword : ∀ b ∈ word, isSpace b = false) :
    scanWord (word ++ 32 :: rest) = some (word, 32 :: rest) := by
  obtain ⟨b, word, rfl⟩ := List.exists_cons_of_ne_nil hnil
  have hb := hword b List.mem_cons_self
  have hstart : (b :: word ++ 32 :: rest).dropWhile isSpace = b :: word ++ 32 :: rest :=
    List.dropWhile_cons_of_neg (by rw [hb]; exact Bool.false_ne_true)
  have hnot : ∀ c ∈ b :: word, (!isSpace c) = true := fun c hc => by rw [hword c hc]; rfl
  unfold scanWord
  rw [hstart]
  dsimp only
  rw [if_neg (by simp), List.takeWhile_append_of_pos hnot, List.dropWhile_append_of_pos hnot]
  simp [isSpace]

theorem scanWord_space (rest : List UInt8) : scanWord (32 :: rest) = scanWord rest := rfl

/-- No byte of an encoded name has a meaning in a request line. -/
theorem Unreserved.percentEncode (hsafe : Unreserved safe) :
    (∀ b ∈ percentEncode safe l, DartSync.isSpace b = false) ∧ 0 ∉ percentEncode safe l ∧
      63 ∉ percentEncode safe l := by
  refine ⟨fun b hb => Bool.eq_false_iff.mpr fun hspace => ?_,
    notMem_percentEncode hsafe.nul (by decide) rfl, notMem_percentEncode hsafe.query (by decide) rfl⟩
  have hunsafe : safe b = false := Bool.eq_false_iff.mpr fun hb' =>
    Bool.false_ne_true ((hsafe.isSpace b hb').symm.trans hspace)
  refine notMem_percentEncode hunsafe ?_ ?_ hb
  · rintro rfl
    exact absurd hspace (by decide)
  · exact Bool.eq_false_iff.mpr fun hdigit =>
      Bool.false_ne_true ((not_isSpace_of_isHexDigit hdigit).1.symm.trans hspace)

theorem isSpace_get : ∀ b ∈ ascii "GET", DartSync.isSpace b = false :=
  List.forall_mem_cons.mpr ⟨rfl, List.forall_mem_cons.mpr ⟨rfl, List.forall_mem_singleton.mpr rfl⟩⟩

theorem requestLine_eq : requestLine safe name ++ [10] =
    ascii "GET" ++ 32 :: (47 :: Percent.percentEncode safe name.bytes ++
      32 :: ascii "HTTP/1.1\r\n") := by
  unfold requestLine
  rw [List.append_assoc, List.append_assoc]
  rfl

/-- Neither is a byte of a request line, but those of the name. -/
theorem notMem_requestLine {b : UInt8} (hstart : b ∉ ascii "GET /") (hend : b ∉ ascii " HTTP/1.1\r")
    (hname : b ∉ Percent.percentEncode safe name.bytes) : b ∉ requestLine safe name := by
  unfold requestLine
  rw [List.mem_append, List.mem_append, not_or, not_or]
  exact ⟨⟨hstart, hname⟩, hend⟩

theorem scanUri_requestLine (hsafe : Unreserved safe) :
    scanUri (.ofBytes (requestLine safe name ++ [10])) =
      some (47 :: Percent.percentEncode safe name.bytes) := by
  obtain ⟨hspace, hnul, -⟩ := hsafe.percentEncode (l := name.bytes)
  have hbytes : (CString.ofBytes (requestLine safe name ++ [10])).bytes =
      requestLine safe name ++ [10] := by
    refine List.takeWhile_eq_self_iff.mpr fun b hb => decide_eq_true ?_
    rintro rfl
    rcases List.mem_append.mp hb with hb | hb
    · exact notMem_requestLine (by decide) (by decide) hnul hb
    · exact absurd hb (by decide)
  have huri : ∀ b ∈ 47 :: Percent.percentEncode safe name.bytes, DartSync.isSpace b = false :=
    List.forall_mem_cons.mpr ⟨rfl, hspace⟩
  unfold scanUri
  rw [hbytes, requestLine_eq, scanWord_word (by decide) isSpace_get]
  refine Option.bind_eq_some_iff.mpr ⟨_, rfl, ?_⟩
  dsimp only
  rw [scanWord_space, scanWord_word (List.cons_ne_nil _ _) huri]
  rfl

/-- The name that is asked for is the file name of the request. -/
theorem parseRequest_requestLine (hsafe : Unreserved safe) (hname : name.bytes ≠ [])
    (hlength : name.length < filenameSize) (hline : (requestLine safe name).length < maxLine) :
    parseRequest (requestLine safe name ++ [10]) = .ok ⟨name.bytes, hlength, 0, 0⟩ := by
  obtain ⟨-, -, hquery⟩ := hsafe.percentEncode (l := name.bytes)
  obtain ⟨hcomplete, hdecode⟩ := percentDecode_percentEncode hsafe.percent name.bytes
  have hnil : Percent.percentEncode safe name.bytes ≠ [] := by
    intro h
    rw [h] at hdecode
    exact hname hdecode.symm
  have hpath : pathPart (47 :: Percent.percentEncode safe name.bytes) =
      Percent.percentEncode safe name.bytes := by
    unfold pathPart
    rw [if_neg fun h => hnil (List.cons.inj h).2, List.head?_cons, if_pos rfl]
    refine List.takeWhile_eq_self_iff.mpr fun b hb => decide_eq_true ?_
    rintro rfl
    exact hquery hb
  have hfile := (requestFile_slash (Percent.percentEncode safe name.bytes)).trans hpath
  rw [parseRequest_ok_iff (scanUri_requestLine hsafe) ?_]
  · rw [hfile]
    exact ⟨(urlDecode_of_escapesComplete hcomplete).trans (congrArg some hdecode), rfl, rfl⟩
  · rw [hfile]
    simp [requestLine] at hline
    omega

/-- However the line comes. -/
theorem readRequest_requestLine {results : List IoResult} (hsafe : Unreserved safe)
    (hname : name.bytes ≠ []) (hlength : name.length < filenameSize)
    (hline : (requestLine safe name).length < maxLine - 1) (hbuf : rioBuf.length = rioBufsize)
    (hresults : .failed ∉ results) :
    readRequest rioBuf ⟨requestLine safe name ++ 10 :: rest, results⟩ =
      .ok ⟨name.bytes, hlength, 0, 0⟩ := by
  obtain ⟨hspace, -, -⟩ := hsafe.percentEncode (l := name.bytes)
  have hnewline : 10 ∉ requestLine safe name :=
    notMem_requestLine (by decide) (by decide) fun h => absurd (hspace 10 h) (by decide)
  have hholds : (Rio.readinitb rioBuf ⟨requestLine safe name ++ 10 :: rest, results⟩).Holds
      (requestLine safe name ++ 10 :: rest) := Rio.holds_readinitb hbuf hresults
  obtain ⟨rp', hread, -⟩ := hholds.readlineb (show 2 ≤ maxLine by decide)
  rw [Rio.cutLine_line hnewline hline, Rio.Line.of_newline] at hread
  unfold readRequest
  rw [hread]
  exact parseRequest_requestLine hsafe hname hlength (by omega)

/-! ## The transaction -/

theorem ofBytes_bytes (s : CString) : CString.ofBytes s.bytes = s := by
  have h := CString.ofBytes_append s [] (Or.inl rfl)
  rwa [List.append_nil] at h

theorem send_emits {size : ℕ} {buf : List UInt8} (h : buf.length < size) (out : WriteFd) :
    ∃ out', send size out buf = .ok out' ∧ Emits out buf out' :=
  ⟨_, if_pos h, (written_sends out buf).1⟩

/-- The header for a file. -/
theorem staticHeader_eq (hlength : name.length < filenameSize) (size : Fin (2 ^ 63)) :
    staticHeader ⟨name.bytes, hlength, 0, size⟩ size =
      ascii "HTTP/1.1 200 OK\r\nAccept-Ranges: bytes\r\nCache-Control: no-cache\r\nContent-length: " ++
        Decimal.ofNat size ++ ascii "\r\nContent-type: " ++ getMimeType name ++ ascii "\r\n\r\n" := by
  have hsize : unsignedLong ((size : ℕ) - (0 : ℤ)) = Decimal.ofNat size := by
    have := size.isLt
    unfold unsignedLong
    congr 1
    omega
  unfold staticHeader
  rw [if_neg (lt_irrefl _), hsize, ofBytes_bytes]
  simp [ascii]

/-- What goes out for a name, whatever the file system says of it. Of a file it is the header. -/
def Answers (openFile : CString → Opened) (handleDirectoryRequest : WriteFd → CString → WriteFd)
    (name : CString) (out out' : WriteFd) : Prop :=
  match openFile name with
  | .missing =>
    Emits out (ascii "HTTP/1.1 404 Not found\r\nContent-length: 14\r\n\r\nFile not found") out'
  | .regular size =>
    Emits out (ascii "HTTP/1.1 200 OK\r\nAccept-Ranges: bytes\r\nCache-Control: no-cache\r\nContent-length: " ++
      Decimal.ofNat size ++ ascii "\r\nContent-type: " ++ getMimeType name ++ ascii "\r\n\r\n") out'
  | .directory => out' = handleDirectoryRequest out name
  | .other =>
    Emits out (ascii "HTTP/1.1 400 Error\r\nContent-length: 12\r\n\r\nUnknow Error") out'

/-- **A transaction.** The name that the browser has encoded is opened, however its line arrives and
whatever is behind it, and the answer is that for this name. -/
theorem process_answers (openFile : CString → Opened)
    (handleDirectoryRequest : WriteFd → CString → WriteFd) (rioBuf rest : List UInt8)
    (results : List IoResult) (out : WriteFd) (hsafe : Unreserved safe) (hname : name.bytes ≠ [])
    (hlength : name.length < filenameSize) (hline : (requestLine safe name).length < maxLine - 1)
    (hbuf : rioBuf.length = rioBufsize) (hresults : .failed ∉ results) :
    ∃ out', process openFile handleDirectoryRequest rioBuf
        ⟨requestLine safe name ++ 10 :: rest, results⟩ out = .ok out' ∧
      Answers openFile handleDirectoryRequest name out out' := by
  unfold process Answers
  rw [readRequest_requestLine hsafe hname hlength hline hbuf hresults]
  dsimp only [bind, Except.bind]
  rw [ofBytes_bytes]
  cases openFile name with
  | missing => exact send_emits (by decide) out
  | regular size =>
    dsimp only
    rw [if_pos rfl, serveStatic_ok, ← staticHeader_eq hlength size]
    exact ⟨_, rfl, (written_sends out _).1⟩
  | directory => exact ⟨_, rfl, rfl⟩
  | other => exact send_emits (by decide) out

namespace WebPageExample

/-- Everything but the lower-case letters is escaped. -/
def lowercase (b : UInt8) : Bool := 97 ≤ b && b ≤ 122

theorem unreserved_lowercase : Unreserved lowercase where
  isSpace b hb := by
    simp only [lowercase, Bool.and_eq_true, decide_eq_true_eq, UInt8.le_iff_toNat_le,
      UInt8.reduceToNat] at hb
    refine Bool.eq_false_iff.mpr fun hspace => ?_
    simp only [isSpace, Bool.or_eq_true, Bool.and_eq_true, decide_eq_true_eq, UInt8.le_iff_toNat_le,
      UInt8.reduceToNat, ← UInt8.toNat_inj] at hspace
    omega
  nul := rfl
  query := rfl
  percent := rfl

/-- Outside of the directory. -/
def outside : CString := ⟨ascii "../a b.css", by decide⟩

/-- Two bytes at first, then nothing for a while, then the rest. -/
def slow : List IoResult := [.upTo 1, .interrupted, .interrupted]

end WebPageExample

open WebPageExample in
theorem process_answers_outside : ∃ out', process (fun _ => .regular 5) (fun out _ => out)
      (List.replicate 1024 0) ⟨requestLine lowercase outside ++ 10 :: ascii "Host: a\r\n\r\n", slow⟩
      ⟨[], []⟩ = .ok out' ∧
    Answers (fun _ => .regular 5) (fun out _ => out) outside ⟨[], []⟩ out' :=
  process_answers (fun _ => .regular 5) (fun out _ => out) (List.replicate 1024 0)
    (ascii "Host: a\r\n\r\n") slow ⟨[], []⟩ unreserved_lowercase (by decide) (by decide) (by decide)
    List.length_replicate (by decide)

end DartSync
