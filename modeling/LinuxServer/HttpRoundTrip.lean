import LinuxServer.HttpServer
import LinuxServer.HttpGrammar

/-!
# Requests sent and understood

A message is a path and header lines that say what they say in one way only.  Encoded and
sent through the socket, in pieces of any size, it is answered with the correct result and
printed as it was.
-/

namespace LinuxServer.HttpServer
open Http CString

/-- Bytes that end neither a line nor a string. -/
def Plain (w : List UInt8) : Prop := ∀ c ∈ w, c ≠ 0 ∧ c ≠ cr ∧ c ≠ lf

/-- The path of a request line. -/
structure Path where
  bytes : List UInt8
  rooted : bytes.head? = some slash
  plain : Plain bytes
  solid : ∀ c ∈ bytes, c ∉ blanks

/-- The value of a `Host` header. -/
structure HostName where
  bytes : List UInt8
  plain : Plain bytes
  trimmed : ∀ c, bytes.head? = some c → c ∉ blanks

/-- A header line that is none of a host. -/
structure OtherLine where
  bytes : List UInt8
  plain : Plain bytes
  filled : bytes ≠ []
  noHost : lower (bytes.take 5) ≠ lower litHost

inductive Header
  | host (name : HostName)
  | other (line : OtherLine)

/-- A `GET` request. -/
structure Message where
  path : Path
  headers : List Header

def Header.line : Header → List UInt8
  | .host name => litHost ++ [32] ++ name.bytes
  | .other line => line.bytes

/-- What the parser prints for a header. -/
def Header.printed : Header → Printed
  | .host name => .host name.bytes
  | .other _ => .otherHeader

def Message.requestline (m : Message) : List UInt8 := litGet ++ [32] ++ m.path.bytes ++ [32] ++ litVersion

/-- A message as it is sent. -/
def Message.encode (m : Message) : List UInt8 := lines (m.requestline :: m.headers.map Header.line ++ [[]])

/-- What the parser prints for a message. -/
def Message.printed (m : Message) : List Printed :=
  .method :: .url m.path.bytes :: m.headers.map Header.printed

variable {s : Scan} {w u : List UInt8}

theorem Plain.append {v : List UInt8} (hw : Plain w) (hv : Plain v) : Plain (w ++ v) := by
  intro c hc
  rcases List.mem_append.mp hc with h | h
  · exact hw c h
  · exact hv c h

theorem Plain.line (h : Plain w) : cr ∉ w ∧ lf ∉ w := ⟨fun hc => (h cr hc).2.1 rfl, fun hc => (h lf hc).2.2 rfl⟩

theorem Plain.cstr (h : Plain w) : cstr w = w := cstr_of_notMem fun h0 => (h 0 h0).1 rfl

theorem plain_literals : Plain (litGet ++ [32]) ∧ Plain ([32] ++ litVersion) ∧ Plain (litHost ++ [32]) := by
  simp [Plain, litGet, litVersion, litHost, cr, lf]

theorem Message.requestline_plain (m : Message) : Plain m.requestline := by
  have h := (plain_literals.1.append m.path.plain).append plain_literals.2.1
  unfold Message.requestline
  simpa only [List.append_assoc] using h

/-- The parser finds the path in the request line. -/
theorem Message.requestPath (m : Message) : requestPath m.requestline = some m.path.bytes := by
  refine requestPath_eq_some.mpr ⟨m.path.bytes, ⟨litGet, [32], [32], litVersion, rfl, rfl, by simp, ?_, ?_,
    m.path.solid, by simp, ?_, rfl⟩, .inl ⟨m.path.rooted, rfl⟩⟩
  · simp [blanks]
  · intro h
    have := m.path.rooted
    simp [h] at this
  · simp [blanks]

theorem Header.line_plain (h : Header) : Plain h.line := by
  cases h with
  | host name => exact plain_literals.2.2.append name.plain
  | other line => exact line.plain

theorem Header.line_ne_nil (h : Header) : h.line ≠ [] := by
  cases h with
  | host name => simp [Header.line, litHost]
  | other line => exact line.filled

/-- The parser finds the host in a header line, and no host in any other. -/
theorem Header.headerOutput (h : Header) : headerOutput h.line = [h.printed] := by
  cases h with
  | host name =>
    have htake : (Header.line (.host name)).take 5 = litHost := by simp [Header.line, litHost]
    have hdrop : (Header.line (.host name)).drop 5 = 32 :: name.bytes := by simp [Header.line, litHost]
    have hskip : (32 :: name.bytes).dropWhile isBlank = name.bytes := by
      have hblank : isBlank 32 = true := rfl
      rw [List.dropWhile_cons_of_pos hblank]
      cases hb : name.bytes with
      | nil => rfl
      | cons c b =>
        have hc : isBlank c = false := by
          have := name.trimmed c (by rw [hb]; rfl)
          simpa [isBlank] using this
        exact List.dropWhile_cons_of_neg (by simp [hc])
    rw [Http.headerOutput, htake, if_pos rfl, hdrop, hskip]
    rfl
  | other line => exact if_neg line.noHost

/-- The scanner on the lines of headers. -/
theorem feed_header (hs : AtHeader s) (h : Header) :
    ((h.line ++ cr :: lf :: u).foldl feed s) = u.foldl feed (s.push h.line).endLine ∧
      AtHeader (s.push h.line).endLine ∧ (s.push h.line).endLine.printed = s.printed ++ [h.printed] := by
  have hcstr : cstr h.line = h.line := h.line_plain.cstr
  have hne : cstr h.line ≠ [] := by
    rw [hcstr]
    exact h.line_ne_nil
  refine ⟨feed_whole_line hs.code hs.sawCr h.line_plain.line, hs.endLine hne, ?_⟩
  have hline : (s.push h.line).line = h.line := by simp [Scan.push, hs.line]
  have hstate : (s.push h.line).checkstate = .header := hs.checkstate
  simp only [Scan.endLine, hstate, hline, hcstr, h.line_ne_nil, if_false, h.headerOutput]
  rfl

theorem feed_headers_printed (hs : AtHeader s) (headers : List Header) (rest : List UInt8) :
    ((lines (headers.map Header.line ++ [[]]) ++ rest).foldl feed s).code = .getRequest ∧
      ((lines (headers.map Header.line ++ [[]]) ++ rest).foldl feed s).printed =
        s.printed ++ headers.map Header.printed := by
  induction headers generalizing s with
  | nil =>
    have hu : lines (List.map Header.line [] ++ [[]]) ++ rest = [] ++ cr :: lf :: rest := by simp [lines]
    have hend : (s.push []).endLine.code = .getRequest := hs.endLine_last rfl
    have hstate : (s.push []).checkstate = .header := hs.checkstate
    have hline : (s.push []).line = [] := by simp [Scan.push, hs.line]
    rw [hu, feed_whole_line hs.code hs.sawCr (by simp), feed_done (by simp [hend])]
    refine ⟨hend, ?_⟩
    have hnil : CString.cstr [] = [] := rfl
    simp only [Scan.endLine, hstate, hline]
    rw [if_pos hnil, List.map_nil, List.append_nil]
    rfl
  | cons h headers ih =>
    have hu : lines ((h :: headers).map Header.line ++ [[]]) ++ rest =
        h.line ++ cr :: lf :: (lines (headers.map Header.line ++ [[]]) ++ rest) := by simp [lines]
    obtain ⟨hfeed, hat, hprinted⟩ := feed_header (u := lines (headers.map Header.line ++ [[]]) ++ rest) hs h
    obtain ⟨hcode, hall⟩ := ih hat
    rw [hu, hfeed]
    refine ⟨hcode, ?_⟩
    rw [hall, hprinted]
    simp

/-- The scanner on a message, whatever follows it. -/
theorem scan_encode (m : Message) (rest : List UInt8) :
    (scan (m.encode ++ rest)).code = .getRequest ∧ (scan (m.encode ++ rest)).printed = m.printed := by
  have hu : m.encode ++ rest =
      m.requestline ++ cr :: lf :: (lines (m.headers.map Header.line ++ [[]]) ++ rest) := by
    simp [Message.encode, lines]
  have hpath : requestPath (cstr m.requestline) = some m.path.bytes := by
    rw [m.requestline_plain.cstr]
    exact m.requestPath
  have hprinted : (Scan.start.push m.requestline).endLine.printed = [.method, .url m.path.bytes] := by
    simp [Scan.endLine, Scan.push, Scan.start, hpath]
  obtain ⟨hcode, hall⟩ := feed_headers_printed (requestline_endLine hpath) m.headers rest
  unfold scan
  rw [hu, feed_whole_line rfl rfl m.requestline_plain.line]
  refine ⟨hcode, ?_⟩
  rw [hall, hprinted]
  rfl

/-- A loop that goes on has not read a whole message. -/
theorem Stage.unread {m : Message} {t : Server} {es : List Event} {c : List UInt8} (h : Stage es t c)
    (hstream : m.encode <+: arrived es) (hend : t.ending = none) : c.length < m.encode.length := by
  by_contra hlen
  have hc : c <+: arrived es := h.stream ▸ List.prefix_append c t.queue
  obtain ⟨rest, rfl⟩ := List.prefix_of_prefix_length_le hstream hc (Nat.le_of_not_lt hlen)
  obtain ⟨tail, hp⟩ := (h.running hend).pending
  have hcode := (scan_encode m rest).1
  rw [hp.code] at hcode
  cases hcode

/-- A message that fits into the buffer is answered with the correct result, and what is
printed says what its path is and which hosts it names, however it comes and whatever
comes behind it: a loop that goes on has still bytes of the message to read, and reads them,
unless `recv` fails. -/
theorem message_understood {m : Message} {t : Server} {es : List Event} (hfit : m.encode.length ≤ bufferSize)
    (hrun : Exec Legal step init es t) (hstream : m.encode <+: arrived es) :
    t.ending = some .readingFailed ∨
      t.ending = some .answered ∧ t.sent = [szret .getRequest] ∧ t.parser.printed = m.printed ∨
      t.ending = none ∧ t.parser.readIndex < m.encode.length ∧
        ∀ n, Legal t (.recv n) → 0 < n ∧ ∃ t', step t (.recv n) = some t' := by
  obtain ⟨c, h⟩ := stage_run hrun
  cases hend : t.ending with
  | none =>
    have hc := h.unread hstream hend
    have hread := (h.running hend).readIndex
    have hqueue : t.queue ≠ [] := by
      intro hnil
      have hle := hstream.length_le
      rw [h.stream, hnil, List.append_nil] at hle
      omega
    refine .inr (.inr ⟨rfl, by omega, fun n hok => ?_⟩)
    have hn : n ≠ 0 := by
      intro hn
      rcases hok.2.2 hn with hroom | ⟨hnil, -⟩
      · unfold Server.room at hroom
        omega
      · exact hqueue hnil
    obtain ⟨t', ht, -, -⟩ := h.recv hend hok hn
    exact ⟨by omega, t', by rw [step, if_pos hend, ht]⟩
  | some ending =>
    by_cases hfailed : ending = .readingFailed
    · exact .inl (congrArg some hfailed)
    obtain ⟨hscan, hsent⟩ := h.verdict (by cases ending <;> simp_all)
    obtain ⟨rest, hrest⟩ := hstream
    have hhead : head es = m.encode ++ rest.take (bufferSize - m.encode.length) := by
      rw [head, ← hrest, List.take_append, List.take_of_length_le hfit]
    obtain ⟨hcode, hprinted⟩ := scan_encode m (rest.take (bufferSize - m.encode.length))
    rw [← hhead, hscan] at hcode hprinted
    refine .inr (.inl ⟨?_, ?_, h.printed.trans hprinted⟩)
    · cases ending with
      | answered => rfl
      | readingFailed => exact absurd rfl hfailed
      | remoteClosed =>
        rw [(h.closed hend).1] at hcode
        cases hcode
    · rw [hsent, hcode]
      rfl

/-- `GET / HTTP/1.1` and a host. -/
def rootMessage : Message where
  path := ⟨[slash], rfl, by simp [Plain, slash, cr, lf], by simp [slash, blanks]⟩
  headers := [.host ⟨[104], by simp [Plain, cr, lf], by simp [blanks]⟩]

theorem message_understood_root : ∃ t, Exec Legal step init [.arrive rootMessage.encode,
      .recv rootMessage.encode.length] t ∧
    t.ending = some .answered ∧ t.sent = [szret .getRequest] ∧ t.parser.printed = rootMessage.printed := by
  have hlen : rootMessage.encode.length = 27 := rfl
  have hfit : rootMessage.encode.length ≤ bufferSize := by
    rw [hlen]
    decide
  have hcode : (scan rootMessage.encode).code ≠ .noRequest := by
    have := (scan_encode rootMessage []).1
    rw [List.append_nil] at this
    simp [this]
  obtain ⟨t, hrun, hend⟩ := exists_answered hfit hcode
  refine ⟨t, hrun, ?_⟩
  rcases message_understood hfit hrun (by simp [arrived]) with h | h | h
  · cases hend.symm.trans h
  · exact h
  · cases hend.symm.trans h.1

end LinuxServer.HttpServer
