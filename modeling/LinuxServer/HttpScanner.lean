import LinuxServer.HttpRequestline

/-!
# The parser as a scanner

`feed` is the parser as it would be if it were handed one byte at a time and kept the
unfinished line instead of the buffer.  `parse_content` on any number of new bytes is
the same as feeding it those bytes, wherever the previous call stopped.
-/

namespace LinuxServer.Http
open CString

/-- The state of the scanner: the bytes of the unfinished line, and whether a CR
follows them whose successor has not been seen. -/
structure Scan where
  code : HttpCode
  checkstate : CheckState
  startLine : ℕ
  checkedIndex : ℕ
  line : List UInt8
  sawCr : Bool
  printed : List Printed
  deriving DecidableEq, Repr

def Scan.start : Scan := ⟨.noRequest, .requestline, 0, 0, [], false, []⟩

/-- The same line, longer by `w`. -/
def Scan.push (s : Scan) (w : List UInt8) : Scan :=
  { s with line := s.line ++ w, checkedIndex := s.checkedIndex + w.length }

/-- The state at the start of the line after this one. -/
def Scan.nextLine (s : Scan) : Scan :=
  { s with
    startLine := s.checkedIndex + 2
    checkedIndex := s.checkedIndex + 2
    line := []
    sawCr := false }

/-- A line has ended with CRLF. -/
def Scan.endLine (s : Scan) : Scan :=
  match s.checkstate with
  | .requestline =>
    match requestPath (cstr s.line) with
    | some u => { s.nextLine with checkstate := .header, printed := s.printed ++ [.method, .url u] }
    | none => { s.nextLine with code := .badRequest, printed := s.printed ++ methodOutput (cstr s.line) }
  | .header =>
    if cstr s.line = [] then { s.nextLine with code := .getRequest }
    else { s.nextLine with printed := s.printed ++ headerOutput (cstr s.line) }
  | .content => { s.nextLine with code := .internalError }

/-- One byte; a result other than `NO_REQUEST` is final. -/
def feed (s : Scan) (c : UInt8) : Scan :=
  if s.code ≠ .noRequest then s
  else if s.sawCr then (if c = lf then s.endLine else { s with code := .badRequest })
  else if c = cr then { s with sawCr := true }
  else if c = lf then { s with code := .badRequest }
  else s.push [c]

/-- A byte that does not end a line. -/
def notEol (c : UInt8) : Bool := decide (c ≠ cr ∧ c ≠ lf)

theorem feed_done {s : Scan} (h : s.code ≠ .noRequest) (u : List UInt8) : u.foldl feed s = s := by
  induction u with
  | nil => rfl
  | cons c u ih => rw [List.foldl_cons, feed, if_pos h, ih]

theorem feed_line {s : Scan} (hcode : s.code = .noRequest) (hcr : s.sawCr = false) {w : List UInt8}
    (hw : ∀ c ∈ w, notEol c = true) : w.foldl feed s = s.push w := by
  induction w generalizing s with
  | nil => simp [Scan.push]
  | cons c w ih =>
    obtain ⟨hc1, hc2⟩ : c ≠ cr ∧ c ≠ lf := by simpa [notEol] using hw c (by simp)
    have hfeed : feed s c = s.push [c] := by simp [feed, hcode, hcr, hc1, hc2]
    rw [List.foldl_cons, hfeed, ih (s := s.push [c]) hcode hcr fun c hc => hw c (by simp [hc])]
    simp [Scan.push, Nat.add_comm, Nat.add_left_comm]

theorem feed_cr {s : Scan} (hcode : s.code = .noRequest) (hcr : s.sawCr = false) :
    feed s cr = { s with sawCr := true } := by
  simp [feed, hcode, hcr]

theorem feed_crlf {s : Scan} (hcode : s.code = .noRequest) :
    feed { s with sawCr := true } lf = s.endLine := by
  rw [feed, if_neg (not_not.mpr hcode), if_pos rfl, if_pos rfl]
  rfl

theorem feed_cr_bad {s : Scan} {c : UInt8} (hcode : s.code = .noRequest) (hc : c ≠ lf) :
    feed { s with sawCr := true } c = { s with code := .badRequest, sawCr := true } := by
  simp [feed, hcode, hc]

theorem feed_lf_bad {s : Scan} (hcode : s.code = .noRequest) (hcr : s.sawCr = false) :
    feed s lf = { s with code := .badRequest } := by
  simp [feed, hcode, hcr, show lf ≠ cr by decide]

/-! ## `parse_line` -/

variable {p p' : Parser} {n : ℕ} {u v w tail : List UInt8} {c : UInt8}

theorem parseLineLoop_skip (hm : p.buffer.drop p.checkedIndex = w ++ tail)
    (hw : ∀ c ∈ w, notEol c = true) : parseLineLoop (w.length + n) p =
      parseLineLoop n { p with checkedIndex := p.checkedIndex + w.length } := by
  induction w generalizing p with
  | nil => simp
  | cons c w ih =>
    obtain ⟨hc1, hc2⟩ : c ≠ cr ∧ c ≠ lf := by simpa [notEol] using hw c (by simp)
    have hget : p.buffer[p.checkedIndex]? = some c := by
      simpa using getElem?_of_drop (a := []) hm
    rw [List.length_cons, Nat.succ_add, parseLineLoop, hget]
    simp only [Option.bind_eq_bind, Option.bind_some, hc1, hc2, if_false]
    rw [ih (p := { p with checkedIndex := p.checkedIndex + 1 })
      (by simpa using drop_add (a := [c]) (b := w ++ tail) hm) fun c hc => hw c (by simp [hc])]
    simp [Nat.add_comm, Nat.add_left_comm]

/-- The bytes left to check contain no end of line. -/
theorem parseLine_open (hm : p.buffer.drop p.checkedIndex = w ++ tail)
    (hr : p.readIndex = p.checkedIndex + w.length) (hw : ∀ c ∈ w, notEol c = true) :
    parseLine p = some (.open, { p with checkedIndex := p.checkedIndex + w.length }) := by
  have hlen : p.readIndex - p.checkedIndex = w.length + 0 := by omega
  rw [parseLine, hlen, parseLineLoop_skip hm hw, parseLineLoop]

/-- They end with a CR that may be the first half of a CRLF. -/
theorem parseLine_cr (hm : p.buffer.drop p.checkedIndex = w ++ cr :: tail)
    (hr : p.readIndex = p.checkedIndex + w.length + 1) (hw : ∀ c ∈ w, notEol c = true) :
    parseLine p = some (.open, { p with checkedIndex := p.checkedIndex + w.length }) := by
  have hlen : p.readIndex - p.checkedIndex = w.length + 1 := by omega
  have hget := getElem?_of_drop hm
  rw [parseLine, hlen, parseLineLoop_skip hm hw]
  simp [parseLineLoop, hget, hr]

/-- A CRLF, which is overwritten; `l` is what was checked of the line before. -/
theorem parseLine_crlf {q : ℕ} {l : List UInt8} (hq : p.checkedIndex = q + l.length)
    (hm : p.buffer.drop q = (l ++ w) ++ cr :: lf :: v)
    (hr : p.checkedIndex + w.length + 2 ≤ p.readIndex) (hw : ∀ c ∈ w, notEol c = true) :
    ∃ b, parseLine p = some (.ok, { p with buffer := b, checkedIndex := p.checkedIndex + w.length + 2 }) ∧
      b.drop q = (l ++ w) ++ 0 :: 0 :: v := by
  obtain ⟨n, hn⟩ : ∃ n, p.readIndex - p.checkedIndex = w.length + (n + 1) :=
    ⟨p.readIndex - p.checkedIndex - w.length - 1, by omega⟩
  have hm' : p.buffer.drop p.checkedIndex = w ++ cr :: lf :: v := by
    rw [hq]
    exact drop_add (by rw [hm, List.append_assoc])
  have hlen : p.checkedIndex + w.length = q + (l ++ w).length := by
    rw [hq, List.length_append]
    omega
  obtain ⟨b1, h1, -, -, h2⟩ := write_spec (x := 0) hm
  have hm1 : b1.drop q = (l ++ w ++ [0]) ++ lf :: v := by simpa using h2
  obtain ⟨b2, h3, -, -, h4⟩ := write_spec (x := 0) hm1
  have hlen1 : p.checkedIndex + w.length + 1 = q + (l ++ w ++ [0]).length := by
    rw [hlen, @List.length_append _ (l ++ w)]
    rfl
  rw [← hlen] at h1
  rw [← hlen1] at h3
  have hget := getElem?_of_drop hm'
  have hget1 : p.buffer[p.checkedIndex + w.length + 1]? = some lf := by
    simpa using getElem?_of_drop (a := [cr]) (b := v) (drop_add hm')
  refine ⟨b2, ?_, by simpa using h4⟩
  have hne : p.checkedIndex + w.length + 1 ≠ p.readIndex := by omega
  rw [parseLine, hn, parseLineLoop_skip hm' hw]
  simp [parseLineLoop, hget, hget1, hne, h1, h3]

/-- A CR followed by anything else. -/
theorem parseLine_cr_bad (hm : p.buffer.drop p.checkedIndex = w ++ cr :: c :: v) (hc : c ≠ lf)
    (hr : p.checkedIndex + w.length + 2 ≤ p.readIndex) (hw : ∀ c ∈ w, notEol c = true) :
    parseLine p = some (.bad, { p with checkedIndex := p.checkedIndex + w.length }) := by
  obtain ⟨n, hn⟩ : ∃ n, p.readIndex - p.checkedIndex = w.length + (n + 1) :=
    ⟨p.readIndex - p.checkedIndex - w.length - 1, by omega⟩
  have hskip := parseLineLoop_skip (n := n + 1) hm hw
  have hget := getElem?_of_drop hm
  have hget1 : p.buffer[p.checkedIndex + w.length + 1]? = some c := by
    simpa using getElem?_of_drop (a := [cr]) (b := v) (drop_add hm)
  have hne : p.checkedIndex + w.length + 1 ≠ p.readIndex := by omega
  rw [parseLine, hn, hskip]
  simp [parseLineLoop, hget, hget1, hne, hc]

/-- The byte in front of the resume position is no CR, so the branch of `parse_line`
for an LF whose CR came with the previous read is never the one that succeeds. -/
def NoCrBefore (p : Parser) : Prop := ∀ i, p.checkedIndex = i + 1 → p.buffer[i]? ≠ some cr

theorem parseLine_lf (hm : p.buffer.drop p.checkedIndex = w ++ lf :: v) (hcr : NoCrBefore p)
    (hr : p.checkedIndex + w.length + 1 ≤ p.readIndex) (hw : ∀ c ∈ w, notEol c = true) :
    parseLine p = some (.bad, { p with checkedIndex := p.checkedIndex + w.length }) := by
  obtain ⟨n, hn⟩ : ∃ n, p.readIndex - p.checkedIndex = w.length + (n + 1) :=
    ⟨p.readIndex - p.checkedIndex - w.length - 1, by omega⟩
  have hskip := parseLineLoop_skip (n := n + 1) hm hw
  have hget := getElem?_of_drop hm
  have hlt : p.checkedIndex + w.length < p.buffer.length := (List.getElem?_eq_some_iff.mp hget).1
  -- the byte in front of the LF is the last one of `w`, or was checked by an earlier call
  have hprev : ∀ i, p.checkedIndex + w.length = i + 1 → ∃ c, p.buffer[i]? = some c ∧ c ≠ cr := by
    intro i hi
    rcases List.eq_nil_or_concat w with rfl | ⟨w', c, rfl⟩
    · obtain ⟨c, hc⟩ : ∃ c, p.buffer[i]? = some c := ⟨p.buffer[i], by simp⟩
      exact ⟨c, hc, fun h => hcr i (by simpa using hi) (h ▸ hc)⟩
    · refine ⟨c, ?_, ?_⟩
      · have := getElem?_of_drop (a := w') (c := c) (b := lf :: v) (by simpa using hm)
        rwa [show i = p.checkedIndex + w'.length by simp at hi; omega]
      · have : c ≠ cr ∧ c ≠ lf := by simpa [notEol] using hw c (by simp)
        exact this.1
  rw [parseLine, hn, hskip]
  have hlc : lf ≠ cr := by decide
  by_cases h1 : 1 < p.checkedIndex + w.length
  · obtain ⟨c, hc, hne⟩ := hprev (p.checkedIndex + w.length - 1) (by omega)
    simp [parseLineLoop, hget, hlc, h1, hc, hne]
  · simp [parseLineLoop, hget, hlc, h1]

/-! ## `parse_content` -/

/-- The bytes that the parser has in its buffer beyond the line of the scanner. -/
def Scan.rest (s : Scan) : List UInt8 := if s.sawCr then [cr] else []

theorem feed_rest {s : Scan} (h : s.code = .noRequest) (v : List UInt8) :
    (s.rest ++ v).foldl feed { s with sawCr := false } = v.foldl feed s := by
  obtain ⟨code, checkstate, startLine, checkedIndex, line, b, printed⟩ := s
  obtain rfl : code = .noRequest := h
  cases b <;> simp [Scan.rest, feed]

/-- What of the scanner's state the parser has in its variables. -/
structure Tracks (p : Parser) (s : Scan) : Prop where
  checkstate : p.checkstate = s.checkstate
  startLine : p.startLine = s.startLine
  checkedIndex : p.checkedIndex = s.checkedIndex
  printed : p.printed = s.printed

/-- The parser waits where the scanner does, with the bytes `u` received since; `tail`
is the rest of the buffer. -/
structure Pending (p : Parser) (s : Scan) (u tail : List UInt8) : Prop extends Tracks p s where
  code : s.code = .noRequest
  line : s.checkedIndex = s.startLine + s.line.length
  readIndex : p.readIndex = s.checkedIndex + (s.rest ++ u).length
  buffer : p.buffer.drop s.startLine = s.line ++ (s.rest ++ u ++ tail)
  noCr : NoCrBefore p

/-- The outcome of a call: the parser has the scanner's result, and can be resumed if
the result is `NO_REQUEST`. -/
def Outcome (r : Option (HttpCode × Parser)) (s : Scan) (tail : List UInt8) : Prop :=
  ∃ p', r = some (s.code, p') ∧ Tracks p' s ∧ (s.code = .noRequest → Pending p' s [] tail)

theorem Pending.unchecked {s : Scan} (h : Pending p s u tail) :
    p.buffer.drop p.checkedIndex = s.rest ++ u ++ tail := by
  rw [h.checkedIndex, h.line]
  exact drop_add h.buffer

variable {s : Scan}

/-- The parser at the start of a line, behind the NULs that end the line before. -/
theorem pending_of_newLine {k : ℕ} (ht : Tracks p s) (hcode : s.code = .noRequest) (hcr : s.sawCr = false)
    (hline : s.line = []) (hs : s.startLine = k + 2) (hc : s.checkedIndex = k + 2)
    (hr : p.readIndex = k + 2 + v.length) (hb : p.buffer.drop k = 0 :: 0 :: (v ++ tail)) :
    Pending p s v tail where
  toTracks := ht
  code := hcode
  line := by rw [hline, hc, hs]; rfl
  readIndex := by simp [hr, hc, Scan.rest, hcr]
  buffer := by
    have := drop_add (a := [0, 0]) (b := v ++ tail) hb
    simpa [hline, hs, Scan.rest, hcr] using this
  noCr := by
    intro i hi
    have hi' : i = k + 1 := by rw [ht.checkedIndex, hc] at hi; omega
    have hget := getElem?_of_drop (a := [0]) (c := 0) (b := v ++ tail) hb
    rw [List.length_singleton, ← hi'] at hget
    rw [hget]
    decide

/-- What the loop of `parse_content` does with the result of an iteration. -/
def continueWith (n : ℕ) (r : HttpCode × Parser) : Option (HttpCode × Parser) :=
  if r.1 = .noRequest then parseContentLoop n r.2 else some r

/-- The state in which an iteration of the loop handles the line that starts at
`startLine`: its string is the scanner's line, the bytes `v` follow it. -/
structure Cut (p : Parser) (s : Scan) (k : ℕ) (v tail : List UInt8) : Prop where
  tracks : Tracks p s.nextLine
  code : s.code = .noRequest
  checkedIndex : s.checkedIndex = k
  readIndex : p.readIndex = k + 2 + v.length
  string : ∃ rest, p.buffer.drop s.startLine = cstr s.line ++ 0 :: rest
  before : s.startLine + (cstr s.line).length ≤ k
  after : p.buffer.drop k = 0 :: 0 :: (v ++ tail)

theorem Cut.requestline {k : ℕ} (h : Cut p s k v tail) (hstate : s.checkstate = .requestline) :
    ∃ p', parseRequestline s.startLine p = some (s.endLine.code, p') ∧ Tracks p' s.endLine ∧
      (s.endLine.code = .noRequest → Pending p' s.endLine v tail) := by
  obtain ⟨rest, hcut⟩ := h.string
  obtain ⟨b, hwr, hreq⟩ := parseRequestline_spec hcut (zero_notMem_cstr s.line)
  -- `parse_requestline` writes into its string only, so what follows the line is as it was
  have hb : b.drop k = 0 :: 0 :: (v ++ tail) := by
    have := congrArg (List.drop (k - (s.startLine + (cstr s.line).length))) hwr.after
    rwa [List.drop_drop, List.drop_drop, Nat.add_sub_cancel' h.before, h.after] at this
  rw [hreq]
  obtain ⟨h1, h2, h3, h4⟩ := h.tracks
  cases hpath : requestPath (cstr s.line) with
  | none =>
    have hs : s.endLine = { s.nextLine with
        code := .badRequest
        printed := s.printed ++ methodOutput (cstr s.line) } := by
      simp only [Scan.endLine, hstate, hpath]
    rw [hs]
    exact ⟨_, rfl, ⟨h1, h2, h3, by rw [h4]; rfl⟩, by simp⟩
  | some u =>
    have hs : s.endLine = { s.nextLine with
        checkstate := .header
        printed := s.printed ++ [.method, .url u] } := by
      simp only [Scan.endLine, hstate, hpath]
    have hcode : s.nextLine.code = .noRequest := h.code
    have ht : Tracks { p with
        buffer := b
        checkstate := .header
        printed := p.printed ++ [.method, .url u] } s.endLine := by
      rw [hs]
      exact ⟨rfl, h2, h3, by rw [h4]; rfl⟩
    refine ⟨_, by rw [hs, hcode], ht, fun _ => ?_⟩
    exact pending_of_newLine ht (by rw [hs, hcode]) (by rw [hs]; rfl) (by rw [hs]; rfl)
      (by rw [hs, ← h.checkedIndex]; rfl) (by rw [hs, ← h.checkedIndex]; rfl) h.readIndex hb

theorem Cut.header {k : ℕ} (h : Cut p s k v tail) (hstate : s.checkstate = .header) :
    ∃ p', parseHeaders s.startLine p = some (s.endLine.code, p') ∧ Tracks p' s.endLine ∧
      (s.endLine.code = .noRequest → Pending p' s.endLine v tail) := by
  obtain ⟨rest, hcut⟩ := h.string
  rw [parseHeaders_spec hcut (zero_notMem_cstr s.line)]
  obtain ⟨h1, h2, h3, h4⟩ := h.tracks
  by_cases hempty : cstr s.line = []
  · have hs : s.endLine = { s.nextLine with code := .getRequest } := by
      simp only [Scan.endLine, hstate, hempty, if_true]
    rw [hs, if_pos hempty]
    exact ⟨_, rfl, ⟨h1, h2, h3, h4⟩, by simp⟩
  · have hs : s.endLine = { s.nextLine with printed := s.printed ++ headerOutput (cstr s.line) } := by
      simp only [Scan.endLine, hstate, hempty, if_false]
    have hcode : s.nextLine.code = .noRequest := h.code
    have ht : Tracks { p with printed := p.printed ++ headerOutput (cstr s.line) } s.endLine := by
      rw [hs]
      exact ⟨h1, h2, h3, by rw [h4]; rfl⟩
    rw [if_neg hempty]
    refine ⟨_, by rw [hs, hcode], ht, fun _ => ?_⟩
    exact pending_of_newLine ht (by rw [hs, hcode]) (by rw [hs]; rfl) (by rw [hs]; rfl)
      (by rw [hs, ← h.checkedIndex]; rfl) (by rw [hs, ← h.checkedIndex]; rfl) h.readIndex h.after

/-- `parse_line` has cut off the line that the scanner is about to end. -/
theorem Pending.cut (hp : Pending p s (w ++ cr :: lf :: v) tail) (hcr : s.sawCr = false)
    (hw : ∀ c ∈ w, notEol c = true) :
    ∃ b, parseLine p = some (.ok, { p with
        buffer := b
        checkedIndex := p.checkedIndex + w.length + 2 }) ∧
      Cut { p with
        buffer := b
        checkedIndex := p.checkedIndex + w.length + 2
        startLine := p.checkedIndex + w.length + 2 }
      (s.push w) (p.checkedIndex + w.length) v tail := by
  have hq : p.checkedIndex = s.startLine + s.line.length := by rw [hp.checkedIndex, hp.line]
  have hm : p.buffer.drop s.startLine = (s.line ++ w) ++ cr :: lf :: (v ++ tail) := by
    rw [hp.buffer]
    simp [Scan.rest, hcr]
  have hr : p.readIndex = p.checkedIndex + w.length + 2 + v.length := by
    rw [hp.readIndex, hp.checkedIndex]
    simp [Scan.rest, hcr]
    omega
  obtain ⟨b, hline, hb⟩ := parseLine_crlf hq hm (by omega) hw
  obtain ⟨rest, hrest⟩ := exists_cstr_append (s.line ++ w) (0 :: (v ++ tail))
  have hk : s.startLine + (s.line ++ w).length = p.checkedIndex + w.length := by
    rw [hq, List.length_append]
    omega
  refine ⟨b, hline, ?_, hp.code, by rw [hp.checkedIndex, Scan.push], hr, ⟨rest, hb.trans hrest⟩, ?_,
    hk ▸ drop_add hb⟩
  · refine ⟨hp.checkstate, ?_, ?_, hp.printed⟩ <;> simp [Scan.nextLine, Scan.push, hp.checkedIndex]
  · rw [← hk]
    exact Nat.add_le_add_left (List.takeWhile_sublist _).length_le _

theorem Scan.endLine_sawCr (s : Scan) : s.endLine.sawCr = false := by
  simp only [Scan.endLine]
  split
  · split <;> rfl
  · split <;> rfl
  · rfl

theorem Scan.endLine_requestline (h : s.checkstate = .requestline) (hcode : s.code = .noRequest) :
    s.endLine.code = .noRequest ∨ s.endLine.code = .badRequest := by
  simp only [Scan.endLine, h]
  cases requestPath (cstr s.line) with
  | none => exact .inr rfl
  | some u => exact .inl hcode

theorem Scan.endLine_header (h : s.checkstate = .header) (hcode : s.code = .noRequest) :
    s.endLine.code = .noRequest ∨ s.endLine.code = .getRequest := by
  simp only [Scan.endLine, h]
  split
  · exact .inr rfl
  · exact .inl hcode

/-- One iteration of the loop in which a line ends. -/
theorem parseContentLoop_endLine (hp : Pending p s (w ++ cr :: lf :: v) tail) (hcr : s.sawCr = false)
    (hw : ∀ c ∈ w, notEol c = true) :
    ∃ p', parseContentLoop (n + 1) p = continueWith n ((s.push w).endLine.code, p') ∧
      Tracks p' (s.push w).endLine ∧
      ((s.push w).endLine.code = .noRequest → Pending p' (s.push w).endLine v tail) := by
  obtain ⟨b, hline, hcut⟩ := hp.cut hcr hw
  have hstart : (s.push w).startLine = p.startLine := hp.startLine.symm
  cases hstate : s.checkstate with
  | requestline =>
    obtain ⟨p', h1, h2, h3⟩ := hcut.requestline hstate
    refine ⟨p', ?_, h2, h3⟩
    rw [hstart, hp.checkstate, hstate] at h1
    rcases Scan.endLine_requestline (s := s.push w) hstate hp.code with h | h <;>
      simp [parseContentLoop, hline, hp.checkstate, hstate, h1, h, continueWith]
  | header =>
    obtain ⟨p', h1, h2, h3⟩ := hcut.header hstate
    refine ⟨p', ?_, h2, h3⟩
    rw [hstart, hp.checkstate, hstate] at h1
    rcases Scan.endLine_header (s := s.push w) hstate hp.code with h | h <;>
      simp [parseContentLoop, hline, hp.checkstate, hstate, h1, h, continueWith]
  | content =>
    have hs : (s.push w).endLine = { (s.push w).nextLine with code := .internalError } := by
      simp only [Scan.endLine, Scan.push, hstate]
    obtain ⟨h1, h2, h3, h4⟩ := hcut.tracks
    rw [hs]
    refine ⟨_, ?_, ⟨h1, h2, h3, h4⟩, by simp⟩
    simp [parseContentLoop, hline, hp.checkstate, hstate, continueWith]

theorem NoCrBefore.push (h : NoCrBefore p) (hm : p.buffer.drop p.checkedIndex = w ++ tail)
    (hw : ∀ c ∈ w, notEol c = true) :
    NoCrBefore { p with checkedIndex := p.checkedIndex + w.length } := by
  intro i hi
  rcases List.eq_nil_or_concat w with rfl | ⟨w', c, rfl⟩
  · exact h i (by simpa using hi)
  · have hget := getElem?_of_drop (a := w') (c := c) (b := tail) (by simpa using hm)
    have hc : c ≠ cr ∧ c ≠ lf := by simpa [notEol] using hw c (by simp)
    have hi' : i = p.checkedIndex + w'.length := by
      simp at hi
      omega
    simpa [hi', hget] using hc.1

/-- Behind bytes without an end of line, and perhaps a CR, the parser waits for more. -/
theorem Pending.push {b : Bool} (hp : Pending p s (w ++ if b then [cr] else []) tail) (hcr : s.sawCr = false)
    (hw : ∀ c ∈ w, notEol c = true) :
    Pending { p with checkedIndex := p.checkedIndex + w.length } { s.push w with sawCr := b } [] tail := by
  have hbuf : p.buffer.drop p.checkedIndex = w ++ ((if b then [cr] else []) ++ tail) := by
    simpa [Scan.rest, hcr] using hp.unchecked
  refine ⟨⟨hp.checkstate, hp.startLine, ?_, hp.printed⟩, hp.code, ?_, ?_, ?_, hp.noCr.push hbuf hw⟩
  · simp [Scan.push, hp.checkedIndex]
  · simp [Scan.push, hp.line, Nat.add_assoc]
  · simp [hp.readIndex, Scan.rest, hcr, Scan.push, Nat.add_assoc]
  · simp [hp.buffer, Scan.rest, hcr, Scan.push]

/-- `parse_content` on the bytes `u` does what the scanner does on them. -/
theorem parseContentLoop_spec (hn : u.length < n) (hp : Pending p s u tail) (hcr : s.sawCr = false) :
    Outcome (parseContentLoop n p) (u.foldl feed s) tail := by
  induction hk : u.length using Nat.strong_induction_on generalizing u n p s with
  | _ k ih =>
  obtain ⟨n, rfl⟩ : ∃ m, n = m + 1 := ⟨n - 1, by omega⟩
  have hm : p.buffer.drop p.checkedIndex = u ++ tail := by simpa [Scan.rest, hcr] using hp.unchecked
  have hr : p.readIndex = p.checkedIndex + u.length := by
    simpa [Scan.rest, hcr, ← hp.checkedIndex] using hp.readIndex
  rcases span_cases notEol u with ⟨hw, -, -⟩ | ⟨w, c, v, rfl, hw, hc, -, -⟩
  · -- no end of line: the call returns and the line stays open
    have hnext := Pending.push (b := false) (by simpa using hp) hcr hw
    have hs : u.foldl feed s = { s.push u with sawCr := false } := by
      rw [feed_line hp.code hcr hw, ← hcr]
      rfl
    rw [hs]
    refine ⟨_, ?_, hnext.toTracks, fun _ => hnext⟩
    simp [parseContentLoop, parseLine_open hm hr hw, Scan.push, hp.code]
  · rw [List.foldl_append, feed_line hp.code hcr hw, List.foldl_cons]
    have hcode : (s.push w).code = .noRequest := hp.code
    have hcr' : (s.push w).sawCr = false := hcr
    rw [List.append_assoc, List.cons_append] at hm
    rw [List.length_append, List.length_cons] at hr
    have hbad : ∀ b, parseLine p = some (.bad, { p with checkedIndex := p.checkedIndex + w.length }) →
        Outcome (parseContentLoop (n + 1) p) { s.push w with code := .badRequest, sawCr := b } tail := by
      intro b h
      refine ⟨{ p with checkedIndex := p.checkedIndex + w.length }, ?_, ?_, by simp⟩
      · simp [parseContentLoop, h]
      · exact ⟨hp.checkstate, hp.startLine, by simp [Scan.push, hp.checkedIndex], hp.printed⟩
    obtain rfl | rfl : c = lf ∨ c = cr := by
      by_contra h
      simp_all [notEol]
    · -- an LF whose CR is not in front of it
      have hfeed : feed (s.push w) lf = { s.push w with code := .badRequest, sawCr := false } := by
        rw [feed_lf_bad hcode hcr', ← hcr']
      rw [hfeed, feed_done (by simp)]
      exact hbad false (parseLine_lf hm hp.noCr (by omega) hw)
    · rw [feed_cr hcode hcr']
      cases v with
      | nil =>
        -- the CR is the last byte received: it is looked at again with the next chunk
        have hnext := Pending.push (b := true) (by simpa using hp) hcr hw
        refine ⟨_, ?_, hnext.toTracks, fun _ => hnext⟩
        simp [parseContentLoop, parseLine_cr hm hr hw, Scan.push, hp.code]
      | cons d v =>
        rw [List.length_cons] at hr
        rw [List.foldl_cons]
        by_cases hd : d = lf
        · subst hd
          obtain ⟨p', h1, h2, h3⟩ := parseContentLoop_endLine (n := n) hp hcr hw
          rw [feed_crlf hcode, h1]
          -- the fuel covers the bytes left, as an iteration uses up at least the CRLF
          by_cases hend : (s.push w).endLine.code = .noRequest
          · rw [continueWith, if_pos hend]
            exact ih v.length (by simp at hk; omega) (by simp at hn; omega) (h3 hend)
              (Scan.endLine_sawCr _) rfl
          · rw [continueWith, if_neg hend, feed_done hend]
            exact ⟨p', rfl, h2, fun h => absurd h hend⟩
        · rw [feed_cr_bad hcode hd, feed_done (by simp)]
          exact hbad true (parseLine_cr_bad hm hd (by omega) hw)

/-- `parse_content` resumes where the scanner waits. -/
theorem parseContent_spec (hp : Pending p s u tail) : Outcome (parseContent p) (u.foldl feed s) tail := by
  -- `checked_index` is in front of a CR at the end, which `parse_line` reads once more
  have hreset : Pending p { s with sawCr := false } (s.rest ++ u) tail :=
    ⟨⟨hp.checkstate, hp.startLine, hp.checkedIndex, hp.printed⟩, hp.code, hp.line,
      by simpa [Scan.rest] using hp.readIndex, by simpa [Scan.rest] using hp.buffer, hp.noCr⟩
  have hlen : (s.rest ++ u).length < p.readIndex - p.checkedIndex + 1 := by
    rw [hp.readIndex, hp.checkedIndex]
    omega
  have := parseContentLoop_spec hlen hreset rfl
  rwa [feed_rest hp.code] at this

/-! ## The receive loop -/

variable {chunk : List UInt8} {chunks : List (List UInt8)}

theorem pending_start : Pending start Scan.start [] start.buffer :=
  ⟨⟨rfl, rfl, rfl, rfl⟩, rfl, rfl, rfl, by simp [Scan.start, Scan.rest],
    fun _ h => absurd h (by simp [start])⟩

/-- A chunk fits if it fits behind the bytes received. -/
theorem Pending.room (hp : Pending p s [] tail) (hne : chunk ≠ []) (hlen : chunk.length ≤ tail.length) :
    p.readIndex + chunk.length ≤ p.buffer.length := by
  have hpos : 0 < chunk.length := List.length_pos_iff.mpr hne
  have := congrArg List.length hp.buffer
  have hread := hp.readIndex
  have hline := hp.line
  simp at this hread
  omega

theorem Pending.recv (hp : Pending p s [] tail) (hroom : p.readIndex + chunk.length ≤ p.buffer.length) :
    ∃ p', Http.recv p chunk = some p' ∧ Pending p' s chunk (tail.drop chunk.length) := by
  have hread : p.readIndex = s.startLine + (s.line ++ s.rest).length := by
    rw [hp.readIndex, hp.line]
    simp [Nat.add_assoc]
  have hbuf : p.buffer.drop s.startLine = (s.line ++ s.rest) ++ tail := by simpa using hp.buffer
  refine ⟨_, if_pos hroom, ⟨hp.checkstate, hp.startLine, hp.checkedIndex, hp.printed⟩, hp.code,
    hp.line, ?_, ?_, ?_⟩
  · simp [hp.readIndex, Nat.add_assoc]
  · have hstart : s.startLine ≤ p.readIndex := by omega
    have htake : (p.buffer.take p.readIndex).drop s.startLine = s.line ++ s.rest := by
      rw [List.drop_take, hbuf, hread, Nat.add_sub_cancel_left, List.take_left]
    have hlen : (p.buffer.take p.readIndex).length = p.readIndex := by
      rw [List.length_take, min_eq_left (by omega)]
    have htail : p.buffer.drop p.readIndex = tail := by
      rw [hread]
      exact drop_add hbuf
    simp only [List.append_assoc, ← List.drop_drop, htail]
    rw [List.drop_append_of_le_length (by omega), htake, List.append_assoc]
  · intro i hi
    have hi' : i < p.readIndex := by
      have hi : p.checkedIndex = i + 1 := hi
      rw [hp.readIndex, ← hp.checkedIndex, hi]
      omega
    have hlen : i < (p.buffer.take p.readIndex).length := by
      rw [List.length_take]
      omega
    have hsame : (p.buffer.take p.readIndex)[i]? = p.buffer[i]? := by
      rw [List.getElem?_take, if_pos hi']
    simpa only [List.append_assoc, List.getElem?_append_left hlen, hsame] using hp.noCr i hi

/-- The receive loop does what the scanner does on all the bytes received. -/
theorem recvLoop_spec (hp : Pending p s [] tail) (hne : ∀ chunk ∈ chunks, chunk ≠ [])
    (hlen : chunks.flatten.length ≤ tail.length) :
    ∃ p', recvLoop p chunks = some ((chunks.flatten.foldl feed s).code, p') ∧
      Tracks p' (chunks.flatten.foldl feed s) := by
  induction chunks generalizing p s tail with
  | nil =>
    refine ⟨p, ?_, hp.toTracks⟩
    simp [recvLoop, hp.code]
  | cons chunk chunks ih =>
    rw [List.flatten_cons, List.length_append] at hlen
    obtain ⟨p1, h1, hp1⟩ := hp.recv (hp.room (hne chunk (by simp)) (by omega))
    obtain ⟨p2, h2, ht, hp2⟩ := parseContent_spec hp1
    rw [List.flatten_cons, List.foldl_append]
    by_cases hcode : (chunk.foldl feed s).code = .noRequest
    · obtain ⟨p3, h3, ht3⟩ := ih (hp2 hcode) (fun c hc => hne c (by simp [hc]))
        (by rw [List.length_drop]; omega)
      refine ⟨p3, ?_, ht3⟩
      simp [recvLoop, h1, h2, hcode, h3]
    · -- the loop stops here, and the scanner ignores the chunks that are left
      rw [feed_done hcode]
      refine ⟨p2, ?_, ht⟩
      simp [recvLoop, h1, h2, hcode]

/-- One call of `parse_content` on a whole request, likewise. -/
theorem parseContent_whole {input : List UInt8} (hlen : input.length ≤ bufferSize) :
    ∃ p', (recv start input).bind parseContent = some ((input.foldl feed Scan.start).code, p') ∧
      Tracks p' (input.foldl feed Scan.start) := by
  have hroom : start.readIndex + input.length ≤ start.buffer.length := by
    simpa [start] using hlen
  obtain ⟨p1, h1, hp1⟩ := pending_start.recv hroom
  obtain ⟨p2, h2, ht, -⟩ := parseContent_spec hp1
  exact ⟨p2, by simp [h1, h2], ht⟩

/-- However a request is cut into chunks, the receive loop ends as one call of
`parse_content` on the whole of it does. -/
theorem recvLoop_chunks (input : List UInt8) (hlen : input.length ≤ bufferSize)
    (chunks : List (List UInt8)) (hcut : chunks.flatten = input) (hne : ∀ chunk ∈ chunks, chunk ≠ []) :
    ∃ result p p', recvLoop start chunks = some (result, p) ∧
      (recv start input).bind parseContent = some (result, p') ∧
      p.checkstate = p'.checkstate ∧ p.startLine = p'.startLine ∧ p.checkedIndex = p'.checkedIndex := by
  subst hcut
  obtain ⟨p, h, ht⟩ := recvLoop_spec pending_start hne (by simpa [start] using hlen)
  obtain ⟨p', h', ht'⟩ := parseContent_whole hlen
  exact ⟨_, p, p', h, h', ht.checkstate.trans ht'.checkstate.symm, ht.startLine.trans ht'.startLine.symm,
    ht.checkedIndex.trans ht'.checkedIndex.symm⟩

/-- A CRLF cut in two. -/
theorem recvLoop_chunks_crlf : ∃ result p p', recvLoop start [[71, cr], [lf]] = some (result, p) ∧
    (recv start [71, cr, lf]).bind parseContent = some (result, p') ∧
    p.checkstate = p'.checkstate ∧ p.startLine = p'.startLine ∧ p.checkedIndex = p'.checkedIndex :=
  recvLoop_chunks [71, cr, lf] (by decide) [[71, cr], [lf]] rfl (by decide)

end LinuxServer.Http
