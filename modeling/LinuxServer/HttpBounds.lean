import LinuxServer.HttpFrame
import LinuxServer.HttpScanner

/-!
# The indices and the buffer of the parser

A function that sees a line as a C string is run on the line alone: that it has a result
there says that it reads and writes nothing else.  `parse_line` is run on the bytes in
front of `read_index` in the same way.  The indices and what is in the buffer around
`checked_index` are an invariant of every call of `parse_content`.
-/

namespace LinuxServer.Http
open CString

/-- The bytes of the buffer from `a` up to `b`. -/
def Parser.bytes (a b : ℕ) (s : Parser) : List UInt8 := (s.buffer.take b).drop a

/-- The parser with the bytes it has received and nothing behind them. -/
def Parser.received (s : Parser) : Parser := { s with buffer := s.buffer.take s.readIndex }

/-- The indices are in order and in the buffer, and the unfinished line has no end of line. -/
structure Bounded (s : Parser) : Prop where
  length : s.buffer.length = bufferSize
  startLine : s.startLine ≤ s.checkedIndex
  checkedIndex : s.checkedIndex ≤ s.readIndex
  readIndex : s.readIndex ≤ bufferSize
  line : ∀ c ∈ s.bytes s.startLine s.checkedIndex, c ≠ cr ∧ c ≠ lf

/-- At most a CR at the end is left to check. -/
def Waits (s : Parser) : Prop :=
  s.checkedIndex = s.readIndex ∨ s.bytes s.checkedIndex s.readIndex = [cr]

/-- The `switch` of `parse_content`. -/
def handleLine (szTemp : ℕ) (s : Parser) : Option (HttpCode × Parser) :=
  match s.checkstate with
  | .requestline => parseRequestline szTemp s
  | .header => parseHeaders szTemp s
  | .content => some (.internalError, s)

/-- `parse_content`, entered with `p`, comes to the head of its loop with `s`. -/
inductive LoopHead (p : Parser) : Parser → Prop
  | enter : LoopHead p p
  | next {s l s' : Parser} : LoopHead p s → parseLine s = some (.ok, l) →
      handleLine l.startLine { l with startLine := l.checkedIndex } = some (.noRequest, s') → LoopHead p s'

/-- `parse_content`, entered with `p`, returns from an iteration of its loop. -/
inductive Returns (p : Parser) : HttpCode → Parser → Prop
  | lineOpen {s l : Parser} : LoopHead p s → parseLine s = some (.open, l) → Returns p .noRequest l
  | lineBad {s l : Parser} : LoopHead p s → parseLine s = some (.bad, l) → Returns p .badRequest l
  | handled {s l s' : Parser} {r : HttpCode} : LoopHead p s → parseLine s = some (.ok, l) →
      handleLine l.startLine { l with startLine := l.checkedIndex } = some (r, s') → r ≠ .noRequest →
      Returns p r s'

/-- What is done with the line that `parse_line` ended, from `s` to `l`. -/
structure LineHandled (s l : Parser) : Prop where
  startLine : l.startLine = s.startLine
  advance : s.checkedIndex + 2 ≤ l.checkedIndex
  bound : l.checkedIndex ≤ s.readIndex
  written : WroteWithin s.buffer l.buffer s.startLine (l.checkedIndex - s.startLine)
  nul : 0 ∈ l.bytes s.startLine l.checkedIndex
  /-- The line is handled as it would be alone in memory. -/
  alone : ∃ r h,
    handleLine 0 { l with startLine := l.checkedIndex, buffer := l.bytes s.startLine l.checkedIndex } =
      some (r, h) ∧
    h.buffer.length = l.checkedIndex - s.startLine ∧ h.checkedIndex = l.checkedIndex ∧
    r ≠ .internalError ∧
    handleLine s.startLine { l with startLine := l.checkedIndex } =
      some (r, h.within (l.buffer.take s.startLine) (l.buffer.drop l.checkedIndex))

/-- What the test of the loop and an iteration do from `s`. -/
structure Turn (s : Parser) : Prop where
  /-- `parse_line` needs nothing from `read_index` on. -/
  reads : ∃ status l, parseLine s.received = some (status, l) ∧ l.buffer.length = s.readIndex ∧
    parseLine s = some (status, l.within [] (s.buffer.drop s.readIndex))
  /-- If it comes to an LF there is no CR in front. -/
  lfFirst : ∀ i, s.checkedIndex ≤ i → i < s.readIndex →
    (∀ c ∈ s.bytes s.checkedIndex i, c ≠ cr ∧ c ≠ lf) → s.buffer[i]? = some lf →
    ¬ (1 < i ∧ s.buffer[i - 1]? = some cr)
  unwritten : ∀ status l, parseLine s = some (status, l) → status ≠ .ok → l.buffer = s.buffer
  line : ∀ l, parseLine s = some (.ok, l) → LineHandled s l

/-- The receive loop keeps to its buffer on these chunks, up to a result other than `NO_REQUEST`. -/
def Safe : Parser → List (List UInt8) → Prop
  | _, [] => True
  | q, chunk :: chunks => ∃ p, recv q chunk = some p ∧ Bounded p ∧ (∀ s, LoopHead p s → Turn s) ∧
      ∃ result p', parseContent p = some (result, p') ∧ Returns p result p' ∧ result ≠ .internalError ∧
        (result = .noRequest → Bounded p' ∧ Waits p' ∧ Safe p' chunks)

/-- The invariant at the head of the loop. -/
structure Ready (s : Parser) : Prop extends Bounded s where
  noCr : NoCrBefore s
  checkstate : s.checkstate ≠ .content

section turn

variable {s l : Parser} {u v w : List UInt8}

theorem handleLine_frame {pre suf : List UInt8} {p : ℕ} {s' : Parser} {r : HttpCode}
    (h : handleLine p s = some (r, s')) :
    handleLine (pre.length + p) (s.within pre suf) = some (r, s'.within pre suf) := by
  unfold handleLine at h ⊢
  have hstate : (s.within pre suf).checkstate = s.checkstate := rfl
  rw [hstate]
  cases hs : s.checkstate with
  | requestline =>
    rw [hs] at h
    exact parseRequestline_frame h
  | header =>
    rw [hs] at h
    exact parseHeaders_frame h
  | content =>
    rw [hs] at h
    obtain ⟨rfl, rfl⟩ := Prod.mk.inj (Option.some.inj h)
    rfl

/-- A line that ends with two NULs and is alone in memory is handled, and still ends with them. -/
theorem handleLine_alone (hstate : s.checkstate ≠ .content) (hb : s.buffer = u ++ [0, 0]) :
    ∃ r b checkstate printed, handleLine 0 s = some (r, { s with
        buffer := b ++ [0, 0]
        checkstate := checkstate
        printed := printed }) ∧
      b.length = u.length ∧ checkstate ≠ .content ∧
      (r = .noRequest ∨ s.checkstate = .requestline ∧ r = .badRequest ∨
        s.checkstate = .header ∧ r = .getRequest) := by
  obtain ⟨rest, hrest⟩ := exists_cstr_append u [0]
  have hm : s.buffer.drop 0 = cstr u ++ 0 :: rest := by
    rw [List.drop_zero, hb]
    exact hrest
  cases hs : s.checkstate with
  | content => exact absurd hs hstate
  | header =>
    have hline : handleLine 0 s = parseHeaders 0 s := by
      unfold handleLine
      rw [hs]
    rw [hline, parseHeaders_spec hm (zero_notMem_cstr u)]
    by_cases hempty : cstr u = []
    · rw [if_pos hempty]
      exact ⟨.getRequest, u, s.checkstate, s.printed, by rw [← hb], rfl, hstate, .inr (.inr ⟨rfl, rfl⟩)⟩
    · rw [if_neg hempty]
      exact ⟨.noRequest, u, s.checkstate, _, by rw [← hb], rfl, hstate, .inl rfl⟩
  | requestline =>
    have hline : handleLine 0 s = parseRequestline 0 s := by
      unfold handleLine
      rw [hs]
    obtain ⟨b, hwr, hreq⟩ := parseRequestline_spec hm (zero_notMem_cstr u)
    -- the line is written to in front of its first NUL only
    have hle : (cstr u).length ≤ u.length := (List.takeWhile_sublist _).length_le
    have hnul : b.drop u.length = [0, 0] := by
      have h := congrArg (List.drop (u.length - (cstr u).length)) hwr.after
      rw [List.drop_drop, List.drop_drop, Nat.zero_add, Nat.add_sub_cancel' hle, hb, List.drop_left] at h
      exact h
    have hsplit : b = b.take u.length ++ [0, 0] := by rw [← hnul, List.take_append_drop]
    have hlen : (b.take u.length).length = u.length := by
      have h := hwr.length
      rw [hb, List.length_append] at h
      rw [List.length_take]
      omega
    rw [hline, hreq]
    cases requestPath (cstr u) with
    | none =>
      exact ⟨.badRequest, b.take u.length, s.checkstate, _, by rw [← hsplit], hlen, hstate,
        .inr (.inl ⟨rfl, rfl⟩)⟩
    | some path =>
      exact ⟨.noRequest, b.take u.length, .header, _, by rw [← hsplit], hlen, by decide, .inl rfl⟩

theorem received_within (s : Parser) : s.received.within [] (s.buffer.drop s.readIndex) = s := by
  unfold Parser.received Parser.within
  simp only [List.nil_append, List.take_append_drop]

/-- The three parts of a buffer. -/
theorem bytes_of_split {a m rest : List UInt8} {i j : ℕ} (hb : s.buffer = a ++ (m ++ rest)) (ha : a.length = i)
    (hm : i + m.length = j) : s.bytes i j = m ∧ s.buffer.take i = a ∧ s.buffer.drop j = rest := by
  subst ha hm
  unfold Parser.bytes
  rw [hb]
  refine ⟨?_, List.take_left, ?_⟩
  · rw [← List.append_assoc, ← List.length_append, List.take_left, List.drop_left]
  · rw [← List.append_assoc, ← List.length_append, List.drop_left]

theorem take_split {i j : ℕ} (hij : i ≤ j) : s.buffer.take j = s.buffer.take i ++ s.bytes i j := by
  have htake : s.buffer.take i = (s.buffer.take j).take i := by rw [List.take_take, min_eq_left hij]
  unfold Parser.bytes
  rw [htake, List.take_append_drop]

theorem split_bytes {i j : ℕ} (hij : i ≤ j) :
    s.buffer = s.buffer.take i ++ (s.bytes i j ++ s.buffer.drop j) := by
  rw [← List.append_assoc, ← take_split hij, List.take_append_drop]

theorem bytes_length {i j : ℕ} (hj : j ≤ s.buffer.length) : (s.bytes i j).length = j - i := by
  unfold Parser.bytes
  rw [List.length_drop, List.length_take, min_eq_left hj]

theorem Bounded.room (h : Bounded s) : s.readIndex ≤ s.buffer.length := h.length ▸ h.readIndex

/-- What `parse_line` does with the bytes `w` in front of the first end of line. -/
theorem Ready.parseLine_cases (hs : Ready s) : ∃ w, (∀ c ∈ w, notEol c = true) ∧
    ((s.bytes s.checkedIndex s.readIndex = w ∨ s.bytes s.checkedIndex s.readIndex = w ++ [cr]) ∧
        parseLine s.received =
          some (.open, { s.received with checkedIndex := s.checkedIndex + w.length }) ∨
      parseLine s.received = some (.bad, { s.received with checkedIndex := s.checkedIndex + w.length }) ∨
      ∃ v, s.bytes s.checkedIndex s.readIndex = w ++ cr :: lf :: v ∧
        parseLine s.received = some (.ok, { s.received with
          buffer := s.buffer.take s.checkedIndex ++ w ++ 0 :: 0 :: v
          checkedIndex := s.checkedIndex + w.length + 2 })) := by
  generalize hu : s.bytes s.checkedIndex s.readIndex = u
  have hlen : s.readIndex = s.checkedIndex + u.length := by
    have hle := hs.checkedIndex
    rw [← hu, bytes_length hs.room]
    omega
  have hm : s.received.buffer.drop s.received.checkedIndex = u := hu
  have hcr : NoCrBefore s.received := by
    intro i hi hget
    have hi : s.checkedIndex = i + 1 := hi
    have hlt : i < s.readIndex := by
      have hle := hs.checkedIndex
      omega
    apply hs.noCr i hi
    simpa only [Parser.received, List.getElem?_take_of_lt hlt] using hget
  rcases span_cases notEol u with ⟨hw, -, -⟩ | ⟨w, c, v, rfl, hw, hc, -, -⟩
  · have hm' : s.received.buffer.drop s.received.checkedIndex = u ++ [] := by rw [hm, List.append_nil]
    exact ⟨u, hw, .inl ⟨.inl rfl, parseLine_open hm' hlen hw⟩⟩
  · rw [List.length_append, List.length_cons] at hlen
    refine ⟨w, hw, ?_⟩
    obtain rfl | rfl : c = lf ∨ c = cr := by
      by_contra h
      simp_all [notEol]
    · right
      left
      exact parseLine_lf hm hcr (by simp only [Parser.received]; omega) hw
    · cases v with
      | nil =>
        left
        exact ⟨.inr rfl, parseLine_cr hm hlen hw⟩
      | cons d v =>
        right
        rw [List.length_cons] at hlen
        by_cases hd : d = lf
        · right
          subst hd
          have hq : s.received.checkedIndex = 0 + (s.buffer.take s.checkedIndex).length := by
            have hle := hs.checkedIndex
            have hroom := hs.room
            simp only [Parser.received]
            rw [List.length_take]
            omega
          have hwhole : s.received.buffer.drop 0 =
              (s.buffer.take s.checkedIndex ++ w) ++ cr :: lf :: v := by
            have htake : s.buffer.take s.checkedIndex = s.received.buffer.take s.received.checkedIndex := by
              simp only [Parser.received]
              rw [List.take_take, min_eq_left hs.checkedIndex]
            rw [List.drop_zero, List.append_assoc, ← hm, htake, List.take_append_drop]
          obtain ⟨b, hline, hb⟩ := parseLine_crlf hq hwhole (by simp only [Parser.received]; omega) hw
          rw [List.drop_zero] at hb
          subst hb
          exact ⟨v, rfl, hline⟩
        · left
          exact parseLine_cr_bad hm hd (by simp only [Parser.received]; omega) hw

theorem parseLine_of_received {status : LineStatus} (h : parseLine s.received = some (status, l)) :
    parseLine s = some (status, l.within [] (s.buffer.drop s.readIndex)) := by
  have hframe : parseLine (s.received.within [] (s.buffer.drop s.readIndex)) =
      some (status, l.within [] (s.buffer.drop s.readIndex)) := parseLine_frame h
  rwa [received_within] at hframe

/-- `parse_line` has ended the line `u`, and the received bytes `v` follow. -/
structure Ended (s l : Parser) (u v : List UInt8) : Prop where
  state : l = { s with
    buffer := s.buffer.take s.startLine ++ ((u ++ [0, 0]) ++ (v ++ s.buffer.drop s.readIndex))
    checkedIndex := s.startLine + u.length + 2 }
  checked : s.checkedIndex ≤ s.startLine + u.length
  readIndex : s.startLine + u.length + 2 + v.length = s.readIndex
  behind : s.buffer.drop (s.startLine + u.length + 2) = v ++ s.buffer.drop s.readIndex

theorem Ready.ended (hs : Ready s) (h : parseLine s = some (.ok, l)) : ∃ u v, Ended s l u v := by
  obtain ⟨w, hw, ⟨-, hline⟩ | hline | ⟨v, hv, hline⟩⟩ := hs.parseLine_cases
  · rw [parseLine_of_received hline] at h
    exact absurd h (by simp)
  · rw [parseLine_of_received hline] at h
    exact absurd h (by simp)
  · rw [parseLine_of_received hline] at h
    have hl := (Prod.mk.inj (Option.some.inj h)).2
    have hstart := hs.startLine
    have hchecked := hs.checkedIndex
    have hroom := hs.room
    have hlen : (s.bytes s.startLine s.checkedIndex).length = s.checkedIndex - s.startLine :=
      bytes_length (by omega)
    have hk : s.startLine + (s.bytes s.startLine s.checkedIndex ++ w).length + 2 =
        s.checkedIndex + w.length + 2 := by
      rw [List.length_append, hlen]
      omega
    have hread := congrArg List.length hv
    rw [bytes_length hroom] at hread
    simp only [List.length_append, List.length_cons] at hread
    refine ⟨s.bytes s.startLine s.checkedIndex ++ w, v, ?_, ?_, ?_, ?_⟩
    · rw [← hl, hk, take_split hstart]
      simp [Parser.within, Parser.received]
    · omega
    · omega
    · rw [hk]
      have hsplit := split_bytes (s := s) hchecked
      rw [hv] at hsplit
      have hsplit' : s.buffer =
          s.buffer.take s.checkedIndex ++ ((w ++ [cr, lf]) ++ (v ++ s.buffer.drop s.readIndex)) := by
        simpa using hsplit
      exact (bytes_of_split hsplit' (List.length_take_of_le (by omega)) (by simp [Nat.add_assoc])).2.2

/-- The three results of `parse_line`. -/
theorem Ready.parseLine_spec (hs : Ready s) :
    (∃ w, (∀ c ∈ w, notEol c = true) ∧
      (s.bytes s.checkedIndex s.readIndex = w ∨ s.bytes s.checkedIndex s.readIndex = w ++ [cr]) ∧
      parseLine s = some (.open, { s with checkedIndex := s.checkedIndex + w.length })) ∨
    (∃ k, parseLine s = some (.bad, { s with checkedIndex := k })) ∨
    ∃ l u v, parseLine s = some (.ok, l) ∧ Ended s l u v := by
  have hsame : ∀ k, Parser.within [] (s.buffer.drop s.readIndex) { s.received with checkedIndex := k } =
      { s with checkedIndex := k } := by
    intro k
    exact congrArg (fun p : Parser => { p with checkedIndex := k }) (received_within s)
  obtain ⟨w, hw, ⟨hbytes, hline⟩ | hline | ⟨v, -, hline⟩⟩ := hs.parseLine_cases
  · have hopen := parseLine_of_received hline
    rw [hsame] at hopen
    exact .inl ⟨w, hw, hbytes, hopen⟩
  · have hbad := parseLine_of_received hline
    rw [hsame] at hbad
    exact .inr (.inl ⟨_, hbad⟩)
  · have hok := parseLine_of_received hline
    obtain ⟨u, v, he⟩ := hs.ended hok
    exact .inr (.inr ⟨_, u, v, hok, he⟩)

theorem Ended.length (hs : Ready s) (he : Ended s l u v) : l.buffer.length = bufferSize := by
  have hread := he.readIndex
  have hroom := hs.readIndex
  have hlen := hs.length
  rw [he.state]
  simp only [List.length_append, List.length_take, List.length_drop, List.length_cons, List.length_nil, hlen]
  omega

/-- Where the line that was ended is in the buffer. -/
theorem Ended.parts (hs : Ready s) (he : Ended s l u v) :
    l.bytes s.startLine l.checkedIndex = u ++ [0, 0] ∧ l.buffer.take s.startLine = s.buffer.take s.startLine ∧
      l.buffer.drop l.checkedIndex = v ++ s.buffer.drop s.readIndex := by
  have hpre : (s.buffer.take s.startLine).length = s.startLine := by
    have hle := he.readIndex
    have hroom := hs.room
    exact List.length_take_of_le (by omega)
  have hl := he.state
  subst hl
  apply bytes_of_split rfl hpre
  rw [List.length_append]
  rfl

/-- At the start of a line, behind a NUL. -/
theorem ready_of_newLine {a rest : List UInt8} (hb : s.buffer = a ++ 0 :: rest)
    (hlen : s.buffer.length = bufferSize) (hk : s.checkedIndex = a.length + 1)
    (hstart : s.startLine = s.checkedIndex) (hle : s.checkedIndex ≤ s.readIndex)
    (hread : s.readIndex ≤ bufferSize) (hstate : s.checkstate ≠ .content) : Ready s := by
  refine ⟨⟨hlen, hstart.le, hle, hread, ?_⟩, ?_, hstate⟩
  · rw [hstart]
    simp [Parser.bytes]
  · intro i hi
    have hget := getElem?_of_drop (m := s.buffer) (p := 0) (a := a) (c := 0) (b := rest) hb
    have hi' : 0 + a.length = i := by omega
    rw [hi'] at hget
    rw [hget]
    decide

/-- The line is handled without a look at the rest of the buffer, and the loop can go on. -/
theorem Ended.handled (hs : Ready s) (he : Ended s l u v) :
    ∃ r h, handleLine 0 { l with startLine := l.checkedIndex, buffer := u ++ [0, 0] } = some (r, h) ∧
      h.buffer.length = u.length + 2 ∧ h.checkedIndex = l.checkedIndex ∧
      (r = .noRequest ∨ s.checkstate = .requestline ∧ r = .badRequest ∨
        s.checkstate = .header ∧ r = .getRequest) ∧
      handleLine s.startLine { l with startLine := l.checkedIndex } =
        some (r, h.within (l.buffer.take s.startLine) (l.buffer.drop l.checkedIndex)) ∧
      Ready (h.within (l.buffer.take s.startLine) (l.buffer.drop l.checkedIndex)) ∧
      h.readIndex = s.readIndex := by
  obtain ⟨hbytes, htake, hdrop⟩ := he.parts hs
  have hl := he.state
  have hstate : l.checkstate = s.checkstate := by rw [hl]
  have hk : l.checkedIndex = s.startLine + u.length + 2 := by rw [hl]
  have hread : l.readIndex = s.readIndex := by rw [hl]
  have hreadIndex := he.readIndex
  have hle : s.startLine ≤ l.checkedIndex := by omega
  have hpre : (l.buffer.take s.startLine).length = s.startLine := by
    have hroom := hs.room
    rw [htake]
    exact List.length_take_of_le (by omega)
  obtain ⟨r, b, checkstate, printed, hline, hb, hcontent, hr⟩ :=
    handleLine_alone (u := u)
      (s := { l with startLine := l.checkedIndex, buffer := u ++ [0, 0] }) (hstate ▸ hs.checkstate) rfl
  have hwhole : handleLine ((l.buffer.take s.startLine).length + 0)
      (Parser.within (l.buffer.take s.startLine) (l.buffer.drop l.checkedIndex) _) =
        some (r, Parser.within (l.buffer.take s.startLine) (l.buffer.drop l.checkedIndex) _) :=
    handleLine_frame hline
  have hin : Parser.within (l.buffer.take s.startLine) (l.buffer.drop l.checkedIndex)
      { l with startLine := l.checkedIndex, buffer := u ++ [0, 0] } =
      { l with startLine := l.checkedIndex } := by
    unfold Parser.within
    rw [← hbytes, ← split_bytes hle]
  rw [hin, hpre, Nat.add_zero] at hwhole
  refine ⟨r, _, hline, ?_, rfl, ?_, hwhole, ?_, ?_⟩
  · simp [hb]
  · rw [← hstate]
    exact hr
  · have hlen := he.length hs
    have hroom := hs.readIndex
    have hbuf : l.buffer.take s.startLine ++ ((b ++ [0, 0]) ++ l.buffer.drop l.checkedIndex) =
        (l.buffer.take s.startLine ++ (b ++ [0])) ++ 0 :: l.buffer.drop l.checkedIndex := by simp
    apply ready_of_newLine hbuf _ _ rfl _ _ hcontent
    · simp only [Parser.within, List.length_append, hpre, hb, List.length_cons, List.length_nil,
        List.length_drop, hlen]
      omega
    · simp only [Parser.within, List.length_append, hpre, hb, List.length_cons, List.length_nil]
      omega
    · simp only [Parser.within]
      omega
    · simp only [Parser.within]
      omega
  · exact hread

theorem Ready.lineHandled (hs : Ready s) (h : parseLine s = some (.ok, l)) : LineHandled s l := by
  obtain ⟨u, v, he⟩ := hs.ended h
  obtain ⟨hbytes, htake, hdrop⟩ := he.parts hs
  obtain ⟨r, h, hline, hlen, hchecked, hr, hwhole, -, -⟩ := he.handled hs
  have hk : l.checkedIndex = s.startLine + u.length + 2 := by rw [he.state]
  have hsum : s.startLine + (l.checkedIndex - s.startLine) = l.checkedIndex := by omega
  have hle := he.checked
  have hread := he.readIndex
  refine ⟨by rw [he.state], by omega, by omega, ⟨(he.length hs).trans hs.length.symm, htake, ?_⟩, ?_,
    r, h, ?_, ?_, hchecked, ?_, hwhole⟩
  · rw [hsum, hdrop, hk, he.behind]
  · rw [hbytes]
    simp
  · rw [hbytes]
    exact hline
  · omega
  · rintro rfl
    simp at hr

/-- The byte in front of an LF is one that is no end of line, or the one that `noCr` is about. -/
theorem Ready.lfFirst (hs : Ready s) (i : ℕ) (hle : s.checkedIndex ≤ i)
    (hw : ∀ c ∈ s.bytes s.checkedIndex i, c ≠ cr ∧ c ≠ lf) : ¬ (1 < i ∧ s.buffer[i - 1]? = some cr) := by
  intro ⟨hone, hget⟩
  by_cases heq : s.checkedIndex = i
  · exact hs.noCr (i - 1) (by omega) hget
  · have hmem : cr ∈ s.bytes s.checkedIndex i := by
      unfold Parser.bytes
      apply List.mem_of_getElem? (i := i - 1 - s.checkedIndex)
      rw [List.getElem?_drop, Nat.add_sub_cancel' (by omega), List.getElem?_take_of_lt (by omega), hget]
    exact (hw cr hmem).1 rfl

theorem Ready.turn (hs : Ready s) : Turn s := by
  have hlen : s.received.buffer.length = s.readIndex := List.length_take_of_le hs.room
  refine ⟨?_, fun i hle _ hw _ => hs.lfFirst i hle hw, ?_, fun l h => hs.lineHandled h⟩
  · obtain ⟨w, -, ⟨-, h⟩ | h | ⟨v, hv, h⟩⟩ := hs.parseLine_cases
    · exact ⟨_, _, h, hlen, parseLine_of_received h⟩
    · exact ⟨_, _, h, hlen, parseLine_of_received h⟩
    · refine ⟨_, _, h, ?_, parseLine_of_received h⟩
      have hcount := congrArg List.length hv
      have hle := hs.checkedIndex
      have hroom := hs.room
      rw [bytes_length hroom] at hcount
      simp only [List.length_append, List.length_cons, List.length_take] at hcount ⊢
      omega
  · intro status l hline hok
    rcases hs.parseLine_spec with ⟨w, -, -, h⟩ | ⟨k, h⟩ | ⟨l', u, v, h, -⟩
    · rw [h] at hline
      rw [← (Prod.mk.inj (Option.some.inj hline)).2]
    · rw [h] at hline
      rw [← (Prod.mk.inj (Option.some.inj hline)).2]
    · rw [h] at hline
      exact absurd (Prod.mk.inj (Option.some.inj hline)).1.symm hok

theorem Ready.loopHead {p : Parser} (hp : Ready p) (h : LoopHead p s) : Ready s := by
  induction h with
  | enter => exact hp
  | next _ hline hhandle ih =>
    obtain ⟨u, v, he⟩ := ih.ended hline
    obtain ⟨r, h, -, -, -, -, hwhole, hready, -⟩ := he.handled ih
    have hstart := (ih.lineHandled hline).startLine
    rw [← hstart, hhandle] at hwhole
    rw [(Prod.mk.inj (Option.some.inj hwhole)).2, hstart]
    exact hready

/-- An iteration of the loop, with the `switch` apart. -/
theorem parseContentLoop_ok {r : HttpCode} {s' : Parser} (n : ℕ) (h : parseLine s = some (.ok, l))
    (hhandle : handleLine l.startLine { l with startLine := l.checkedIndex } = some (r, s'))
    (hr : r = .noRequest ∨ l.checkstate = .requestline ∧ r = .badRequest ∨
      l.checkstate = .header ∧ r = .getRequest) :
    parseContentLoop (n + 1) s = continueWith n (r, s') := by
  unfold handleLine at hhandle
  rw [parseContentLoop, h]
  simp only [Option.bind_eq_bind, Option.bind_some]
  cases hs : l.checkstate with
  | requestline =>
    simp only [hs] at hhandle hr ⊢
    rw [hhandle]
    rcases hr with rfl | ⟨-, rfl⟩ | ⟨h, -⟩
    · rfl
    · rfl
    · exact absurd h (by decide)
  | header =>
    simp only [hs] at hhandle hr ⊢
    rw [hhandle]
    rcases hr with rfl | ⟨h, -⟩ | ⟨-, rfl⟩
    · rfl
    · exact absurd h (by decide)
    · rfl
  | content =>
    simp only [hs] at hhandle hr ⊢
    rcases hr with rfl | ⟨h, -⟩ | ⟨h, -⟩
    · exact absurd (Prod.mk.inj (Option.some.inj hhandle)).1 (by decide)
    · exact absurd h (by decide)
    · exact absurd h (by decide)

/-- `parse_line` has gone on to the end of the received bytes, or to a CR in front of it. -/
theorem Ready.skip (hs : Ready s) (hw : ∀ c ∈ w, notEol c = true)
    (hbytes : s.bytes s.checkedIndex s.readIndex = w ∨ s.bytes s.checkedIndex s.readIndex = w ++ [cr]) :
    Ready { s with checkedIndex := s.checkedIndex + w.length } ∧
      Waits { s with checkedIndex := s.checkedIndex + w.length } := by
  have hstart := hs.startLine
  have hle := hs.checkedIndex
  have hlen := bytes_length (i := s.checkedIndex) hs.room
  have hpre : (s.buffer.take s.checkedIndex).length = s.checkedIndex :=
    List.length_take_of_le (hle.trans hs.room)
  obtain ⟨rest, hrest, hcases⟩ : ∃ rest, s.bytes s.checkedIndex s.readIndex = w ++ rest ∧
      (rest = [] ∨ rest = [cr]) := by
    rcases hbytes with h | h
    · exact ⟨[], by rw [h, List.append_nil], .inl rfl⟩
    · exact ⟨[cr], h, .inr rfl⟩
  rw [hrest, List.length_append] at hlen
  have hsplit := split_bytes (s := s) hle
  rw [hrest, List.append_assoc] at hsplit
  have hdrop : s.buffer.drop s.checkedIndex = w ++ (rest ++ s.buffer.drop s.readIndex) :=
    (bytes_of_split (m := []) hsplit hpre rfl).2.2
  have hline : s.bytes s.startLine (s.checkedIndex + w.length) =
      s.bytes s.startLine s.checkedIndex ++ w := by
    rw [take_split hstart, List.append_assoc, ← List.append_assoc (s.bytes _ _)] at hsplit
    apply (bytes_of_split hsplit (List.length_take_of_le (hstart.trans (hle.trans hs.room))) _).1
    rw [List.length_append, bytes_length (hle.trans hs.room)]
    omega
  refine ⟨⟨⟨hs.length, ?_, ?_, hs.readIndex, ?_⟩, hs.noCr.push hdrop hw, hs.checkstate⟩, ?_⟩
  · exact hstart.trans (Nat.le_add_right ..)
  · simp only
    omega
  · intro c hc
    have hc : c ∈ s.bytes s.startLine (s.checkedIndex + w.length) := hc
    rw [hline] at hc
    rcases List.mem_append.mp hc with hc | hc
    · exact hs.line c hc
    · simpa [notEol] using hw c hc
  · rcases hcases with rfl | rfl
    · left
      rw [List.length_nil] at hlen
      simp only
      omega
    · right
      rw [← List.append_assoc] at hsplit
      apply (bytes_of_split hsplit _ _).1
      · rw [List.length_append, hpre]
      · rw [List.length_singleton] at hlen ⊢
        simp only
        omega

theorem LoopHead.trans {p s t : Parser} (hs : LoopHead p s) (ht : LoopHead s t) : LoopHead p t := by
  induction ht with
  | enter => exact hs
  | next _ hline hhandle ih => exact ih.next hline hhandle

theorem LoopHead.returns {p p' : Parser} {r : HttpCode} (hs : LoopHead p s) (h : Returns s r p') :
    Returns p r p' := by
  cases h with
  | lineOpen ht hline => exact .lineOpen (hs.trans ht) hline
  | lineBad ht hline => exact .lineBad (hs.trans ht) hline
  | handled ht hline hhandle hr => exact .handled (hs.trans ht) hline hhandle hr

/-- The fuel covers the bytes left to check, as an iteration uses up two of them. -/
theorem Ready.parseContentLoop {n : ℕ} (hs : Ready s) (hn : s.readIndex - s.checkedIndex < n) :
    ∃ result s', Http.parseContentLoop n s = some (result, s') ∧ Returns s result s' ∧
      result ≠ .internalError ∧ (result = .noRequest → Ready s' ∧ Waits s' ∧ s'.readIndex = s.readIndex) := by
  induction n generalizing s with
  | zero => omega
  | succ n ih =>
    rcases hs.parseLine_spec with ⟨w, hw, hbytes, hopen⟩ | ⟨k, hbad⟩ | ⟨l, u, v, hok, he⟩
    · have hcontent : Http.parseContentLoop (n + 1) s =
          some (.noRequest, { s with checkedIndex := s.checkedIndex + w.length }) := by
        rw [Http.parseContentLoop, hopen]
        rfl
      exact ⟨_, _, hcontent, .lineOpen .enter hopen, by decide,
        fun _ => ⟨(hs.skip hw hbytes).1, (hs.skip hw hbytes).2, rfl⟩⟩
    · have hcontent : Http.parseContentLoop (n + 1) s = some (.badRequest, { s with checkedIndex := k }) := by
        rw [Http.parseContentLoop, hbad]
        rfl
      exact ⟨_, _, hcontent, .lineBad .enter hbad, by decide, fun h => absurd h (by decide)⟩
    · obtain ⟨r, h, -, -, hchecked, hr, hwhole, hready, hread⟩ := he.handled hs
      have hhandled := hs.lineHandled hok
      have hadvance := hhandled.advance
      have hbound := hhandled.bound
      have hstate : l.checkstate = s.checkstate := by rw [he.state]
      rw [← hstate] at hr
      rw [← hhandled.startLine] at hwhole hready
      rw [parseContentLoop_ok n hok hwhole hr]
      by_cases hgo : r = .noRequest
      · have hmeasure : h.readIndex - h.checkedIndex < n := by omega
        obtain ⟨result, s', hrun, hreturns, hresult, hpost⟩ := ih hready hmeasure
        rw [continueWith, if_pos hgo]
        have hnext := LoopHead.enter.next hok (hgo ▸ hwhole)
        refine ⟨result, s', hrun, hnext.returns hreturns, hresult, fun hno => ?_⟩
        obtain ⟨hready', hwaits, hread'⟩ := hpost hno
        exact ⟨hready', hwaits, hread'.trans hread⟩
      · rw [continueWith, if_neg hgo]
        refine ⟨r, _, rfl, .handled .enter hok hwhole hgo, ?_, fun hno => absurd hno hgo⟩
        rintro rfl
        simp at hr

theorem Ready.parseContent (hs : Ready s) :
    ∃ result s', Http.parseContent s = some (result, s') ∧ Returns s result s' ∧
      result ≠ .internalError ∧ (result = .noRequest → Ready s' ∧ Waits s' ∧ s'.readIndex = s.readIndex) :=
  hs.parseContentLoop (Nat.lt_succ_self _)

/-- A chunk is stored behind what was received before. -/
theorem Ready.recv {chunk : List UInt8} (hs : Ready s) (hroom : s.readIndex + chunk.length ≤ bufferSize) :
    ∃ p, Http.recv s chunk = some p ∧ Ready p ∧ p.readIndex = s.readIndex + chunk.length := by
  have hle := hs.checkedIndex
  have hlen : (s.buffer.take s.readIndex).length = s.readIndex := List.length_take_of_le hs.room
  have hstored : s.readIndex + chunk.length ≤ s.buffer.length := hs.length ▸ hroom
  generalize hb : s.buffer.take s.readIndex ++ chunk ++ s.buffer.drop (s.readIndex + chunk.length) = b
  have hrecv : Http.recv s chunk =
      some { s with buffer := b, readIndex := s.readIndex + chunk.length } := by
    rw [Http.recv, if_pos hstored, hb]
  have hblen : b.length = bufferSize := by
    rw [← hb, List.length_append, List.length_append, hlen, List.length_drop, hs.length]
    omega
  have htake : ∀ k, k ≤ s.readIndex → b.take k = s.buffer.take k := by
    intro k hk
    rw [← hb, List.append_assoc, List.take_append_of_le_length (by omega), List.take_take, min_eq_left hk]
  refine ⟨_, hrecv, ⟨⟨hblen, hs.startLine, ?_, hroom, ?_⟩, ?_, hs.checkstate⟩, rfl⟩
  · exact hle.trans (Nat.le_add_right ..)
  · unfold Parser.bytes
    simp only [htake _ hle]
    exact hs.line
  · intro i hi
    have hi : s.checkedIndex = i + 1 := hi
    have hget := congrArg (fun m : List UInt8 => m[i]?) (htake s.checkedIndex hle)
    simp only [List.getElem?_take_of_lt (show i < s.checkedIndex by omega)] at hget
    rw [hget]
    exact hs.noCr i hi

theorem Ready.safe {chunks : List (List UInt8)} (hs : Ready s)
    (hlen : s.readIndex + chunks.flatten.length ≤ bufferSize) : Safe s chunks := by
  induction chunks generalizing s with
  | nil => trivial
  | cons chunk chunks ih =>
    rw [List.flatten_cons, List.length_append] at hlen
    have hroom : s.readIndex + chunk.length ≤ bufferSize := by omega
    obtain ⟨p, hrecv, hp, hread⟩ := hs.recv hroom
    obtain ⟨result, p', hparse, hreturns, hresult, hpost⟩ := hp.parseContent
    refine ⟨p, hrecv, hp.toBounded, fun s h => (hp.loopHead h).turn, result, p', hparse, hreturns, hresult,
      fun hno => ?_⟩
    obtain ⟨hready, hwaits, hread'⟩ := hpost hno
    exact ⟨hready.toBounded, hwaits, ih hready (by omega)⟩

end turn

theorem ready_start : Ready start := by
  refine ⟨⟨List.length_replicate, le_rfl, le_rfl, Nat.zero_le _, ?_⟩, ?_, by decide⟩
  · simp [Parser.bytes, start]
  · intro i hi
    exact absurd hi (by simp [start])

/-- The indices and the buffer through every call of `parse_content`, whatever is received. -/
theorem recvLoop_safe (chunks : List (List UInt8)) (hlen : chunks.flatten.length ≤ bufferSize) :
    Safe start chunks :=
  ready_start.safe (by simpa [start] using hlen)

/-- A CRLF cut in two. -/
theorem recvLoop_safe_crlf : Safe start [[71, cr], [lf]] := recvLoop_safe _ (by decide)

end LinuxServer.Http
