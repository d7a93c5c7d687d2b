import LinuxServer.Printf

/-!
# The reply of `6-2_testwritev.cpp`

A client that connects is sent a header with the length of a file, and the file.  `stat` and `read`
may report anything, and `writev` sends what it is given, up to the limit for one call.
-/

namespace LinuxServer.FileServer
open CString

/-- `BUFFER_SIZE`. -/
def bufferSize : ℕ := 1024

/-- What one call of `writev` moves at most: `INT_MAX` less the last page. -/
def writeMax : ℕ := 0x7ffff000

/-- `S_ISDIR(st_mode)`, `st_mode & S_IROTH` and `st_size`. -/
structure Stat where
  isDir : Bool
  irOth : Bool
  size : ℕ
  deriving DecidableEq, Repr

/-- `valid` and `file_buf`, which is `none` until it is set. -/
structure File where
  valid : Bool
  fileBuf : Option (List UInt8)
  deriving DecidableEq, Repr

/-- The checks on the file.  Where `stat` or `read` fails, its result is `none`. -/
def load (stat : Option Stat) (read : Option (List UInt8)) : File :=
  match stat with
  | none => ⟨false, none⟩
  | some st =>
    if st.isDir then ⟨false, none⟩
    else if st.irOth then
      match read with
      | none => ⟨false, some (List.replicate (st.size + 1) 0)⟩
      | some data => ⟨true, some (data ++ List.replicate (st.size + 1 - data.length) 0)⟩
    else ⟨false, none⟩

/-! ## The texts of the header -/

def crlf : List UInt8 := [13, 10]

/-- `HTTP/1.1` and `status_line[0]` or `status_line[1]`. -/
def status (ok : Bool) : List UInt8 :=
  [72, 84, 84, 80, 47, 49, 46, 49, 32] ++
    if ok then [50, 48, 48, 32, 79, 75]
    else [53, 48, 48, 32, 73, 110, 116, 101, 114, 110, 97, 108, 32, 115, 101, 114, 118, 101, 114, 32,
      101, 114, 114, 111, 114]

/-- `Content-Length: `. -/
def litLength : List UInt8 := [67, 111, 110, 116, 101, 110, 116, 45, 76, 101, 110, 103, 116, 104, 58, 32]

/-- `Content-Length: %d\r\n`, up to the line end. -/
def lengthField (size : ℕ) : List UInt8 := litLength ++ printInt (lowInt size)

/-- Print a text behind the first `len` bytes of `header_buf`. -/
def addText (header : List UInt8 × ℕ) (text : List UInt8) : Option (List UInt8 × ℕ) :=
  (snprintf header.1 header.2 (bufferSize - 1 - header.2) text).map fun r => (r.1, header.2 + r.2)

/-- The string in `header_buf` after a few texts, which is as long as `strlen` says. -/
def headerStr (texts : List (List UInt8)) : Option (List UInt8) := do
  let header ← texts.foldlM addText (List.replicate bufferSize 0, 0)
  str header.1 0

/-- What the client was sent, and the buffer that is deleted afterwards. -/
structure Reply where
  sent : List UInt8
  fileBuf : Option (List UInt8)
  deriving DecidableEq, Repr

/-- From the accepted connection on. -/
def serve (stat : Option Stat) (read : Option (List UInt8)) : Option Reply :=
  if (load stat read).valid then do
    let st ← stat
    let body ← (load stat read).fileBuf
    let header ← headerStr [status true ++ crlf, lengthField st.size ++ crlf, crlf]
    some ⟨(header ++ body.take st.size).take writeMax, some body⟩
  else do
    let header ← headerStr [status false ++ crlf, crlf]
    some ⟨header, (load stat read).fileBuf⟩

/-! ## What the client is to understand -/

/-- The first line of a text, and what comes behind it. -/
def splitLine : List UInt8 → Option (List UInt8 × List UInt8)
  | [] => none
  | c :: rest =>
    if c = 13 ∧ rest.head? = some 10 then some ([], rest.tail)
    else (splitLine rest).map fun r => (c :: r.1, r.2)

def readLength (field : List UInt8) : Option ℕ :=
  if litLength <+: field then readDecimal (field.drop litLength.length) else none

/-- The status and the body of a reply.  The body is as long as the header says, if it does. -/
def understand (reply : List UInt8) : Option (List UInt8 × List UInt8) := do
  let line ← splitLine reply
  let field ← splitLine line.2
  if field.1 = [] then some (line.1, field.2)
  else do
    let n ← readLength field.1
    let blank ← splitLine field.2
    if blank.1 = [] ∧ n ≤ blank.2.length then some (line.1, blank.2.take n) else none

/-- What a file that may be read contains: what was read, and NULs where it has become shorter. -/
def contents (stat : Option Stat) (read : Option (List UInt8)) : Option (List UInt8) := do
  let st ← stat
  let data ← read
  if st.isDir = false ∧ st.irOth = true then some (data ++ List.replicate (st.size - data.length) 0) else none

/-- What is to be said of a file. -/
def meant (body : Option (List UInt8)) : List UInt8 × List UInt8 :=
  body.elim (status false, []) fun body => (status true, body)

/-! ## The header -/

variable {stat : Option Stat} {st : Stat} {read : Option (List UInt8)} {texts : List (List UInt8)}

theorem foldlM_addText (t : List UInt8) (h : t.length + texts.flatten.length < bufferSize - 1) :
    texts.foldlM addText (t ++ List.replicate (bufferSize - t.length) 0, t.length) =
      some (t ++ texts.flatten ++ List.replicate (bufferSize - (t ++ texts.flatten).length) 0,
        (t ++ texts.flatten).length) := by
  induction texts generalizing t with
  | nil => simp
  | cons u texts ih =>
    rw [List.flatten_cons, List.length_append] at h
    have hu : u.length < bufferSize - 1 - t.length := by omega
    have hN : t.length + u.length < bufferSize := by omega
    have hadd : addText (t ++ List.replicate (bufferSize - t.length) 0, t.length) u =
        some (t ++ u ++ List.replicate (bufferSize - (t ++ u).length) 0, (t ++ u).length) := by
      unfold addText
      rw [snprintf_append hu hN, Option.map_some, List.length_append]
    have hrest := ih (t ++ u) (by rw [List.length_append]; omega)
    have hflat : t ++ (u :: texts).flatten = t ++ u ++ texts.flatten := by
      rw [List.flatten_cons, List.append_assoc]
    rw [List.foldlM_cons, hadd, hflat]
    exact hrest

/-- Texts that fit are the string in the buffer. -/
theorem headerStr_flatten (h : texts.flatten.length < bufferSize - 1) (h0 : 0 ∉ texts.flatten) :
    headerStr texts = some texts.flatten := by
  have hfill : texts.foldlM addText (List.replicate bufferSize 0, 0) =
      some (texts.flatten ++ List.replicate (bufferSize - texts.flatten.length) 0, texts.flatten.length) :=
    foldlM_addText [] (by simpa using h)
  have hstr : str (texts.flatten ++ List.replicate (bufferSize - texts.flatten.length) 0) 0 =
      some texts.flatten := by rw [str_zeros _ (by omega), cstr_of_notMem h0]
  unfold headerStr
  rw [hfill]
  exact hstr

theorem lowInt_natAbs (size : ℕ) : (lowInt size).natAbs < 10 ^ 10 := by
  have h := lowInt_bounds size
  omega

theorem lengthField_bytes (size : ℕ) {c : UInt8} (hc : c ∈ lengthField size) : c ≠ 0 ∧ c ≠ 13 := by
  rcases List.mem_append.mp hc with hc | hc
  · constructor
    · rintro rfl
      exact absurd hc (by decide)
    · rintro rfl
      exact absurd hc (by decide)
  · have h := (printInt_bytes hc).1
    constructor
    · rintro rfl
      exact absurd h (by decide)
    · rintro rfl
      exact absurd h (by decide)

theorem lengthField_eq {size : ℕ} (h : size < 2147483648) : lengthField size = litLength ++ decimal size := by
  have hlow : lowInt size = size := lowInt_eq (by omega) (by omega)
  have hpos : ¬ (size : ℤ) < 0 := by omega
  rw [lengthField, hlow, printInt, if_neg hpos, Int.natAbs_natCast]

theorem lengthField_length (size : ℕ) : (lengthField size).length ≤ 27 := by
  have h := printInt_length (by decide) (lowInt_natAbs size)
  rw [lengthField, List.length_append]
  have hlit : litLength.length = 16 := rfl
  omega

theorem header_length (size : ℕ) : (status true ++ crlf ++ (lengthField size ++ crlf ++ crlf)).length =
    21 + (lengthField size).length := by
  have hstatus : (status true ++ crlf).length = 17 := rfl
  have hcrlf : crlf.length = 2 := rfl
  simp only [List.length_append] at hstatus ⊢
  omega

/-- The header of a file fits in `header_buf`, whatever the size of the file. -/
theorem headerStr_ok (size : ℕ) : headerStr [status true ++ crlf, lengthField size ++ crlf, crlf] =
    some (status true ++ crlf ++ (lengthField size ++ crlf ++ crlf)) := by
  have hflat : [status true ++ crlf, lengthField size ++ crlf, crlf].flatten =
      status true ++ crlf ++ (lengthField size ++ crlf ++ crlf) := by simp
  rw [← hflat]
  apply headerStr_flatten
  · rw [hflat]
    have h := lengthField_length size
    rw [header_length]
    unfold bufferSize
    omega
  · rw [hflat]
    have hstatus : 0 ∉ status true ++ crlf := by decide
    have hcrlf : 0 ∉ crlf := by decide
    have hfield : 0 ∉ lengthField size := fun h => (lengthField_bytes size h).1 rfl
    simp only [List.mem_append, not_or] at hstatus ⊢
    exact ⟨hstatus, ⟨hfield, hcrlf⟩, hcrlf⟩

/-! ## What the client understands -/

theorem splitLine_append {line rest : List UInt8} (h : 13 ∉ line) :
    splitLine (line ++ crlf ++ rest) = some (line, rest) := by
  induction line with
  | nil => rfl
  | cons c line ih =>
    have hc : ¬ (c = 13 ∧ (line ++ crlf ++ rest).head? = some 10) := fun hc =>
      h (hc.1 ▸ List.mem_cons_self)
    have hrest := ih fun hmem => h (List.mem_cons_of_mem _ hmem)
    show splitLine (c :: (line ++ crlf ++ rest)) = _
    rw [splitLine, if_neg hc, hrest, Option.map_some]

theorem readLength_lengthField (size : ℕ) : readLength (lengthField size) =
    if lowInt size < 0 then none else some (lowInt size).natAbs := by
  have hpre : litLength <+: lengthField size := List.prefix_append _ _
  have hdrop : (lengthField size).drop litLength.length = printInt (lowInt size) :=
    List.drop_left
  unfold readLength
  rw [if_pos hpre, hdrop, readDecimal_printInt]

theorem splitLine_status (size : ℕ) (body : List UInt8) :
    splitLine (status true ++ crlf ++ (lengthField size ++ crlf ++ crlf) ++ body) =
      some (status true, lengthField size ++ crlf ++ (crlf ++ body)) := by
  rw [List.append_assoc _ _ body, List.append_assoc _ crlf body]
  exact splitLine_append (by decide)

theorem splitLine_field (size : ℕ) (body : List UInt8) :
    splitLine (lengthField size ++ crlf ++ (crlf ++ body)) = some (lengthField size, crlf ++ body) :=
  splitLine_append fun h => (lengthField_bytes size h).2 rfl

theorem understand_of_lines {reply field rest body : List UInt8}
    (h1 : splitLine reply = some (status true, rest)) (h2 : splitLine rest = some (field, crlf ++ body))
    (hne : field ≠ []) : understand reply =
      (readLength field).bind fun n => if n ≤ body.length then some (status true, body.take n) else none := by
  have h3 : splitLine (crlf ++ body) = some ([], body) := splitLine_append List.not_mem_nil
  simp only [understand, h1, h2, h3, hne, Option.bind_eq_bind, Option.bind_some, if_false, true_and]

theorem understand_file (size : ℕ) (body : List UInt8) :
    understand (status true ++ crlf ++ (lengthField size ++ crlf ++ crlf) ++ body) =
      if 0 ≤ lowInt size ∧ (lowInt size).natAbs ≤ body.length then
        some (status true, body.take (lowInt size).natAbs) else none := by
  have hne : lengthField size ≠ [] := List.append_ne_nil_of_left_ne_nil (List.cons_ne_nil _ _) _
  have hlen := readLength_lengthField size
  rw [understand_of_lines (splitLine_status size body) (splitLine_field size body) hne]
  by_cases hneg : lowInt size < 0
  · rw [hlen, if_pos hneg, if_neg fun h => absurd h.1 (by omega)]
    rfl
  · have hpos : 0 ≤ lowInt size := by omega
    rw [hlen, if_neg hneg, Option.bind_some]
    by_cases hle : (lowInt size).natAbs ≤ body.length
    · rw [if_pos hle, if_pos ⟨hpos, hle⟩]
    · rw [if_neg hle, if_neg fun h => hle h.2]

/-- The client gets the whole body exactly if all of it is sent and its length is not too large for
an `int`. -/
theorem understand_sent_iff {size n : ℕ} {body : List UInt8} (hbody : body.length = size) :
    understand (status true ++ crlf ++ (lengthField size ++ crlf ++ crlf) ++ body.take n) =
      some (status true, body) ↔ size ≤ n ∧ size < 2147483648 := by
  rw [understand_file]
  constructor
  · intro h
    by_cases hok : 0 ≤ lowInt size ∧ (lowInt size).natAbs ≤ (body.take n).length
    · rw [if_pos hok] at h
      have htake : ((body.take n).take (lowInt size).natAbs).length = body.length :=
        congrArg List.length (Prod.mk.inj (Option.some.inj h)).2
      rw [List.length_take, List.length_take] at htake
      have hlt := (lowInt_bounds size).2
      omega
    · rw [if_neg hok] at h
      cases h
  · rintro ⟨hn, h⟩
    have hlow : lowInt size = size := lowInt_eq (by omega) (by omega)
    have habs : (lowInt size).natAbs = body.length := by omega
    rw [List.take_of_length_le (by omega), if_pos ⟨by omega, by omega⟩, habs, List.take_length]

/-- The header of a file that comes near the limit has 47 bytes. -/
theorem fits_iff (size : ℕ) :
    size ≤ writeMax - (status true ++ crlf ++ (lengthField size ++ crlf ++ crlf)).length ∧ size < 2147483648 ↔
      47 + size ≤ writeMax := by
  have hlit : litLength.length = 16 := rfl
  have hmax : writeMax = 2147479552 := rfl
  by_cases hsize : size < 2147483648
  · have hle : (decimal size).length ≤ 10 := decimal_length (by decide) (by omega)
    rw [header_length, lengthField_eq hsize, List.length_append, hlit]
    by_cases hlarge : 10 ^ 9 ≤ size
    · have hlt := lt_decimal_length hlarge
      omega
    · omega
  · omega

/-! ## The reply -/

theorem serve_eq (hvalid : (load stat read).valid = true) :
    serve stat read = stat.bind fun st => (load stat read).fileBuf.bind fun body =>
      (headerStr [status true ++ crlf, lengthField st.size ++ crlf, crlf]).bind fun header =>
        some ⟨(header ++ body.take st.size).take writeMax, some body⟩ := by
  unfold serve
  rw [if_pos hvalid]
  rfl

theorem serve_valid {body : List UInt8} (hload : load (some st) read = ⟨true, some body⟩) :
    serve (some st) read = some ⟨(status true ++ crlf ++ (lengthField st.size ++ crlf ++ crlf) ++
      body.take st.size).take writeMax, some body⟩ := by
  rw [serve_eq (by rw [hload]), Option.bind_some, hload, Option.bind_some, headerStr_ok, Option.bind_some]

theorem serve_invalid (hload : (load stat read).valid = false) :
    serve stat read = some ⟨status false ++ crlf ++ crlf, (load stat read).fileBuf⟩ := by
  have hheader : headerStr [status false ++ crlf, crlf] = some (status false ++ crlf ++ crlf) :=
    headerStr_flatten (by decide) (by decide)
  unfold serve
  rw [hload, if_neg Bool.false_ne_true, hheader]
  rfl

/-- A file that may be read is sent behind its header, as far as the limit allows. -/
theorem serve_contents {body : List UInt8} (hread : ∀ data ∈ read, data.length ≤ st.size)
    (hbody : contents (some st) read = some body) : body.length = st.size ∧
      ∃ r, serve (some st) read = some r ∧
        r.sent = (status true ++ crlf ++ (lengthField st.size ++ crlf ++ crlf) ++ body).take writeMax := by
  cases read with
  | none => cases hbody
  | some data =>
    have hdata := hread data rfl
    simp only [contents, Option.bind_eq_bind, Option.bind_some, Option.ite_none_right_eq_some,
      Option.some.injEq] at hbody
    obtain ⟨⟨hdir, hoth⟩, rfl⟩ := hbody
    have hload : load (some st) (some data) =
        ⟨true, some (data ++ List.replicate (st.size + 1 - data.length) 0)⟩ := by
      simp [load, hdir, hoth]
    have hmin : min (st.size - data.length) (st.size + 1 - data.length) = st.size - data.length := by omega
    have htake : (data ++ List.replicate (st.size + 1 - data.length) (0 : UInt8)).take st.size =
        data ++ List.replicate (st.size - data.length) 0 := by
      rw [List.take_append, List.take_of_length_le hdata, List.take_replicate, hmin]
    refine ⟨?_, _, serve_valid hload, ?_⟩
    · rw [List.length_append, List.length_replicate]
      omega
    · rw [htake]

/-- A file that may not be read is answered with an error. -/
theorem serve_error (hbody : contents stat read = none) :
    ∃ r, serve stat read = some r ∧ understand r.sent = some (status false, []) := by
  have hload : (load stat read).valid = false := by
    cases stat with
    | none => rfl
    | some st =>
      cases read with
      | none => cases hdir : st.isDir <;> cases hoth : st.irOth <;> simp [load, hdir, hoth]
      | some data =>
        cases hdir : st.isDir <;> cases hoth : st.irOth <;> simp [contents, load, hdir, hoth] at hbody ⊢
  have hsaid : understand (status false ++ crlf ++ crlf) = some (status false, []) := by decide
  exact ⟨_, serve_invalid hload, hsaid⟩

/-- Whatever `stat` and `read` report, a reply is sent, and the client understands it as it is meant
exactly if one `writev` moves the header and the file. -/
theorem reply_understood (hread : ∀ st ∈ stat, ∀ data ∈ read, data.length ≤ st.size) :
    ∃ r, serve stat read = some r ∧
      (understand r.sent = some (meant (contents stat read)) ↔
        ∀ body ∈ contents stat read, 47 + body.length ≤ writeMax) := by
  cases hbody : contents stat read with
  | none =>
    obtain ⟨r, hr, hsent⟩ := serve_error hbody
    exact ⟨r, hr, by simp [meant, hsent]⟩
  | some body =>
    cases stat with
    | none => cases hbody
    | some st =>
      obtain ⟨hlen, r, hr, hsent⟩ := serve_contents (hread st rfl) hbody
      have hheader : (status true ++ crlf ++ (lengthField st.size ++ crlf ++ crlf)).length ≤ writeMax := by
        have hfield := lengthField_length st.size
        have hmax : writeMax = 2147479552 := rfl
        rw [header_length]
        omega
      rw [List.take_append, List.take_of_length_le hheader] at hsent
      have hiff := (understand_sent_iff hlen).trans (fits_iff st.size)
      rw [← hsent, ← hlen] at hiff
      exact ⟨r, hr, by simpa [meant] using hiff⟩

/-- A file of three bytes that has lost its last one. -/
theorem reply_understood_three : ∃ r, serve (some ⟨false, true, 3⟩) (some [104, 105]) = some r ∧
    (understand r.sent = some (status true, [104, 105, 0]) ↔
      ∀ body ∈ contents (some ⟨false, true, 3⟩) (some [104, 105]), 47 + body.length ≤ writeMax) :=
  reply_understood (by decide)

end LinuxServer.FileServer
