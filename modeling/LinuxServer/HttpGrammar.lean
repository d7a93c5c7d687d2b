import LinuxServer.HttpScanner

/-!
# The requests that the parser accepts

Two grammars.  `Request` delimits the lines and their parts by bytes.  `CStringRequest`
delimits the lines by bytes and reads each of them as a C string, so that what follows
a NUL in a line is not looked at; it is the one that the parser accepts.
-/

namespace LinuxServer.Http
open CString

/-- `GET`, blanks, a target with a path, blanks, `HTTP/1.1`, nothing else. -/
def IsRequestline (r : List UInt8) : Prop :=
  ∃ method b1 target b2 version, r = method ++ b1 ++ target ++ b2 ++ version ∧
    lower method = lower litGet ∧
    b1 ≠ [] ∧ (∀ c ∈ b1, c ∈ blanks) ∧
    (∀ c ∈ target, c ∉ blanks) ∧
    (target.head? = some slash ∨ lower (target.take 7) = lower litHttp ∧ slash ∈ target.drop 7) ∧
    b2 ≠ [] ∧ (∀ c ∈ b2, c ∈ blanks) ∧
    lower version = lower litVersion

/-- The path that a target stands for: the target itself, or, behind `http://`, what follows
from the first slash on. -/
def HasPath (target path : List UInt8) : Prop :=
  target.head? = some slash ∧ path = target ∨
    lower (target.take 7) = lower litHttp ∧ slash ∈ target.drop 7 ∧
      path = (target.drop 7).dropWhile notSlash

/-- A request line, with its target. -/
def IsRequestlineOf (r target : List UInt8) : Prop :=
  ∃ method b1 b2 version, r = method ++ b1 ++ target ++ b2 ++ version ∧
    lower method = lower litGet ∧
    b1 ≠ [] ∧ (∀ c ∈ b1, c ∈ blanks) ∧
    target ≠ [] ∧ (∀ c ∈ target, c ∉ blanks) ∧
    b2 ≠ [] ∧ (∀ c ∈ b2, c ∈ blanks) ∧
    lower version = lower litVersion

/-- Lines, each with its CRLF. -/
def lines (ls : List (List UInt8)) : List UInt8 := ls.flatMap (· ++ [cr, lf])

/-- A request line, header lines and an empty line, whatever follows. -/
def Request (input : List UInt8) : Prop :=
  ∃ r headers rest, input = lines (r :: headers ++ [[]]) ++ rest ∧
    (∀ w ∈ r :: headers, cr ∉ w ∧ lf ∉ w) ∧
    IsRequestline r ∧ ∀ w ∈ headers, 1 ≤ w.length

/-- The same, where a line counts as the C string that it begins with. -/
def CStringRequest (input : List UInt8) : Prop :=
  ∃ r headers last rest, input = lines (r :: headers ++ [last]) ++ rest ∧
    (∀ w ∈ r :: headers ++ [last], cr ∉ w ∧ lf ∉ w) ∧
    IsRequestline (cstr r) ∧ (∀ w ∈ headers, cstr w ≠ []) ∧ cstr last = []

/-- One call of `parse_content` on the whole input returns `GET_REQUEST`. -/
def Accepts (input : List UInt8) : Prop :=
  ∃ p, (recv start input).bind parseContent = some (.getRequest, p)

theorem accepts_iff_feed {input : List UInt8} (hlen : input.length ≤ bufferSize) :
    Accepts input ↔ (input.foldl feed Scan.start).code = .getRequest := by
  obtain ⟨p, h, -⟩ := parseContent_whole hlen
  rw [Accepts, h]
  constructor
  · rintro ⟨p', h'⟩
    simp only [Option.some.injEq, Prod.mk.injEq] at h'
    exact h'.1
  · intro h'
    exact ⟨p, by rw [h']⟩

/-! ## The request line -/

theorem notBlank_of_lower {s lit : List UInt8} (h : lower s = lower lit)
    (hlit : (lower lit).all (· ∉ blanks) = true) : ∀ c ∈ s, notBlank c = true := by
  intro c hc
  have hmem : toLower c ∈ lower lit := h ▸ List.mem_map_of_mem hc
  simp only [notBlank, decide_eq_true_eq]
  intro hb
  have hid : toLower c = c := by
    simp only [blanks, List.mem_cons, List.not_mem_nil, or_false] at hb
    rcases hb with rfl | rfl <;> rfl
  have hnb : toLower c ∉ blanks := by simpa using List.all_eq_true.mp hlit _ hmem
  exact hnb (hid.symm ▸ hb)

theorem takeWhile_append_stop {f : UInt8 → Bool} {a b : List UInt8} (ha : ∀ c ∈ a, f c = true)
    (hb : ∀ c, b.head? = some c → f c = false) : (a ++ b).takeWhile f = a ∧ (a ++ b).dropWhile f = b := by
  induction a with
  | nil =>
    cases b with
    | nil => simp
    | cons c b => simp [hb c rfl]
  | cons c a ih =>
    obtain ⟨h1, h2⟩ := ih fun c hc => ha c (by simp [hc])
    simp [ha c (by simp), h1, h2]

theorem targetPath_eq_some {t u : List UInt8} : targetPath t = some u ↔ HasPath t u := by
  unfold HasPath
  by_cases hhttp : lower (t.take 7) = lower litHttp
  · -- behind `http://` the alternative that begins with a slash is out
    have hhead : t.head? ≠ some slash := by
      cases t with
      | nil => simp
      | cons c t =>
        have h7 : toLower c = 104 := by simpa [lower, litHttp, toLower] using congrArg List.head? hhttp
        simp only [List.head?_cons, ne_eq, Option.some.injEq]
        rintro rfl
        exact absurd h7 (by decide)
    rcases span_cases notSlash (t.drop 7) with ⟨h1, -, h3⟩ | ⟨a, c, b, h1, h2, h3, -, h5⟩
    · have hno : slash ∉ t.drop 7 := fun h => by simpa [notSlash] using h1 slash h
      simp [targetPath, hhttp, h3, hhead, hno]
    · obtain rfl : c = slash := by simpa [notSlash] using h3
      have hmem : slash ∈ t.drop 7 := by simp [h1]
      simp [targetPath, hhttp, h5, hhead, hmem, eq_comm]
  · simp [targetPath, hhttp, eq_comm]

theorem HasPath.ne_nil {t u : List UInt8} (h : HasPath t u) : t ≠ [] := by
  rintro rfl
  simp [HasPath] at h

theorem head?_eq_blank {b s : List UInt8} (hb : b ≠ []) (hb' : ∀ c ∈ b, c ∈ blanks) :
    ∀ c, (b ++ s).head? = some c → notBlank c = false := by
  obtain ⟨d, b, rfl⟩ := List.exists_cons_of_ne_nil hb
  intro c hc
  obtain rfl : d = c := by simpa using hc
  simpa [notBlank] using hb' d (by simp)

theorem head?_eq_notBlank {s : List UInt8} (hs : ∀ c ∈ s, notBlank c = true) :
    ∀ c, s.head? = some c → isBlank c = false := by
  intro c hc
  simpa [isBlank, notBlank] using hs c (List.mem_of_mem_head? hc)

theorem versionPath_eq_some {r u : List UInt8} : versionPath r = some u ↔
    ∃ target b version, r = target ++ b ++ version ∧ (∀ c ∈ target, c ∉ blanks) ∧
      HasPath target u ∧ b ≠ [] ∧ (∀ c ∈ b, c ∈ blanks) ∧ lower version = lower litVersion := by
  constructor
  · intro h
    rcases span_cases notBlank r with ⟨-, -, h3⟩ | ⟨t, c, v, rfl, h2, h3, h4, h5⟩
    · simp [versionPath, h3] at h
    · have hc : isBlank c = true := by simpa [isBlank, notBlank] using h3
      have hv : lower (v.dropWhile isBlank) = lower litVersion := by
        by_contra hne
        simp [versionPath, h5, hc, hne] at h
      refine ⟨t, c :: v.takeWhile isBlank, v.dropWhile isBlank, by simp, ?_, ?_, by simp, ?_, hv⟩
      · intro x hx
        simpa [notBlank] using h2 x hx
      · apply targetPath_eq_some.mp
        simpa [versionPath, h4, h5, hc, hv] using h
      · intro x hx
        rcases List.mem_cons.mp hx with rfl | hx
        · simpa [isBlank] using hc
        · simpa [isBlank] using List.mem_takeWhile_imp hx
  · rintro ⟨t, b, v, rfl, ht, hpath, hb, hb', hv⟩
    rw [List.append_assoc]
    obtain ⟨h1, h2⟩ := takeWhile_append_stop (f := notBlank) (a := t) (b := b ++ v)
      (fun c hc => by simpa [notBlank] using ht c hc) (head?_eq_blank hb hb')
    obtain ⟨-, h3⟩ := takeWhile_append_stop (f := isBlank) (a := b) (b := v)
      (fun c hc => by simpa [isBlank] using hb' c hc)
      (head?_eq_notBlank (notBlank_of_lower hv (by decide)))
    simpa [versionPath, h1, h2, h3, hb, hv] using targetPath_eq_some.mpr hpath

/-- `parse_requestline` accepts the strings of the grammar, and prints the path of the
target. -/
theorem requestPath_eq_some {r u : List UInt8} :
    requestPath r = some u ↔ ∃ target, IsRequestlineOf r target ∧ HasPath target u := by
  constructor
  · intro h
    rcases span_cases notBlank r with ⟨-, -, h3⟩ | ⟨g, c, w, rfl, h2, h3, h4, h5⟩
    · simp [requestPath, h3] at h
    · have hc : isBlank c = true := by simpa [isBlank, notBlank] using h3
      have hg : lower g = lower litGet := by
        by_contra hne
        simp [requestPath, h4, hne] at h
      have hver : versionPath (w.dropWhile isBlank) = some u := by
        simpa [requestPath, h4, h5, hc, hg] using h
      obtain ⟨t, b2, v, hu, ht, hpath, hb2, hb2', hv⟩ := versionPath_eq_some.mp hver
      refine ⟨t, ⟨g, c :: w.takeWhile isBlank, b2, v, ?_, hg, by simp, ?_, hpath.ne_nil, ht, hb2, hb2',
        hv⟩, hpath⟩
      · have := List.takeWhile_append_dropWhile (p := isBlank) (l := w)
        rw [hu] at this
        simpa using this.symm
      · intro x hx
        rcases List.mem_cons.mp hx with rfl | hx
        · simpa [isBlank] using hc
        · simpa [isBlank] using List.mem_takeWhile_imp hx
  · rintro ⟨t, ⟨g, b1, b2, v, rfl, hg, hb1, hb1', htne, ht, hb2, hb2', hv⟩, hpath⟩
    obtain ⟨h1, h2⟩ := takeWhile_append_stop (f := notBlank) (a := g) (b := b1 ++ (t ++ b2 ++ v))
      (notBlank_of_lower hg (by decide)) (head?_eq_blank hb1 hb1')
    obtain ⟨-, h3⟩ := takeWhile_append_stop (f := isBlank) (a := b1) (b := t ++ b2 ++ v)
      (fun c hc => by simpa [isBlank] using hb1' c hc) (by
        obtain ⟨d, t, rfl⟩ := List.exists_cons_of_ne_nil htne
        intro c hc
        obtain rfl : d = c := by simpa using hc
        simpa [isBlank] using ht d (by simp))
    have hver := versionPath_eq_some.mpr ⟨t, b2, v, rfl, ht, hpath, hb2, hb2', hv⟩
    have hr : g ++ b1 ++ t ++ b2 ++ v = g ++ (b1 ++ (t ++ b2 ++ v)) := by simp
    rw [hr]
    simp only [requestPath, h1, h2, h3, hg]
    rwa [if_neg (by simp [hb1])]

theorem isRequestline_iff {r : List UInt8} :
    IsRequestline r ↔ ∃ target path, IsRequestlineOf r target ∧ HasPath target path := by
  constructor
  · rintro ⟨g, b1, t, b2, v, hr, hg, hb1, hb1', ht, hpath, hb2, hb2', hv⟩
    have hp : ∃ u, HasPath t u := by
      rcases hpath with h | ⟨h1, h2⟩
      · exact ⟨t, .inl ⟨h, rfl⟩⟩
      · exact ⟨_, .inr ⟨h1, h2, rfl⟩⟩
    obtain ⟨u, hu⟩ := hp
    exact ⟨t, u, ⟨g, b1, b2, v, hr, hg, hb1, hb1', hu.ne_nil, ht, hb2, hb2', hv⟩, hu⟩
  · rintro ⟨t, u, ⟨g, b1, b2, v, hr, hg, hb1, hb1', -, ht, hb2, hb2', hv⟩, hu⟩
    refine ⟨g, b1, t, b2, v, hr, hg, hb1, hb1', ht, ?_, hb2, hb2', hv⟩
    rcases hu with h | ⟨h1, h2, -⟩
    · exact .inl h.1
    · exact .inr ⟨h1, h2⟩

theorem requestPath_isSome (r : List UInt8) : (requestPath r).isSome = true ↔ IsRequestline r := by
  rw [Option.isSome_iff_exists, isRequestline_iff]
  constructor
  · rintro ⟨u, hu⟩
    obtain ⟨t, ht, hp⟩ := requestPath_eq_some.mp hu
    exact ⟨t, u, ht, hp⟩
  · rintro ⟨t, u, ht, hp⟩
    exact ⟨u, requestPath_eq_some.mpr ⟨t, ht, hp⟩⟩

/-- The answer of `parse_requestline` to the string `r`, whatever stands behind it. -/
theorem parseRequestline_answer {s : Parser} {p : ℕ} {r rest : List UInt8}
    (hm : s.buffer.drop p = r ++ 0 :: rest) (h0 : 0 ∉ r) :
    ∃ code s', parseRequestline p s = some (code, s') ∧ WroteWithin s.buffer s'.buffer p r.length ∧
      (∀ path, requestPath r = some path → code = .noRequest ∧ s'.checkstate = .header ∧
        s'.printed = s.printed ++ [.method, .url path]) ∧
      (requestPath r = none → code = .badRequest ∧ s'.checkstate = s.checkstate ∧
        s'.printed = s.printed ++ methodOutput r) := by
  obtain ⟨b, hb, h⟩ := parseRequestline_spec hm h0
  cases hpath : requestPath r with
  | some path =>
    rw [hpath] at h
    refine ⟨_, _, h, hb, ?_, by simp⟩
    intro u hu
    cases hu
    exact ⟨rfl, rfl, rfl⟩
  | none =>
    rw [hpath] at h
    exact ⟨_, _, h, hb, by simp, fun _ => ⟨rfl, rfl, rfl⟩⟩

/-- `parse_requestline` accepts exactly the strings of the grammar and prints the path of the
target.  It gives the same answer in a memory that ends with the NUL of the string, so it reads
nothing behind that. -/
theorem parseRequestline_decides {s : Parser} {p : ℕ} {r rest : List UInt8}
    (hm : s.buffer.drop p = r ++ 0 :: rest) (h0 : 0 ∉ r) :
    ∃ code s', parseRequestline p s = some (code, s') ∧ WroteWithin s.buffer s'.buffer p r.length ∧
      (code = .noRequest ∧ s'.checkstate = .header ↔
        ∃ target path, IsRequestlineOf r target ∧ HasPath target path) ∧
      (∀ target path, IsRequestlineOf r target → HasPath target path →
        s'.printed = s.printed ++ [.method, .url path]) ∧
      ((¬ ∃ target path, IsRequestlineOf r target ∧ HasPath target path) →
        code = .badRequest ∧ s'.checkstate = s.checkstate) ∧
      ∃ s'', parseRequestline p { s with buffer := s.buffer.take (p + r.length + 1) } = some (code, s'') ∧
        s''.checkstate = s'.checkstate ∧ s''.printed = s'.printed := by
  have hcut : ({ s with buffer := s.buffer.take (p + r.length + 1) } : Parser).buffer.drop p =
      r ++ 0 :: [] := by
    have hlen : p + r.length + 1 - p = (r ++ [0]).length := by
      rw [List.length_append, List.length_singleton]
      omega
    have happ : r ++ 0 :: rest = (r ++ [0]) ++ rest := by simp
    rw [List.drop_take, hm, hlen, happ, List.take_left]
  obtain ⟨code, s', h1, h2, h3, h4⟩ := parseRequestline_answer hm h0
  obtain ⟨code', s'', g1, -, g3, g4⟩ := parseRequestline_answer hcut h0
  have hiff : (∃ target path, IsRequestlineOf r target ∧ HasPath target path) ↔
      ∃ path, requestPath r = some path := by
    rw [← isRequestline_iff, ← requestPath_isSome, Option.isSome_iff_exists]
  rw [hiff]
  cases hpath : requestPath r with
  | some path =>
    obtain ⟨rfl, hstate, hprint⟩ := h3 path hpath
    obtain ⟨rfl, hstate', hprint'⟩ := g3 path hpath
    refine ⟨_, s', h1, h2, ⟨fun _ => ⟨path, rfl⟩, fun _ => ⟨rfl, hstate⟩⟩, ?_, ?_, s'', g1,
      hstate'.trans hstate.symm, hprint'.trans hprint.symm⟩
    · intro target u ht hu
      have hu' := requestPath_eq_some.mpr ⟨target, ht, hu⟩
      rw [hpath] at hu'
      cases hu'
      exact hprint
    · intro hno
      exact absurd ⟨path, rfl⟩ hno
  | none =>
    obtain ⟨rfl, hstate, hprint⟩ := h4 hpath
    obtain ⟨rfl, hstate', hprint'⟩ := g4 hpath
    refine ⟨_, s', h1, h2, ?_, ?_, fun _ => ⟨rfl, hstate⟩, s'', g1, hstate'.trans hstate.symm,
      hprint'.trans hprint.symm⟩
    · simp
    · intro target u ht hu
      have hu' := requestPath_eq_some.mpr ⟨target, ht, hu⟩
      rw [hpath] at hu'
      cases hu'

/-- `get  HTTP://h/x HTTP/1.1`, in a memory that goes on behind it. -/
theorem parseRequestline_decides_absolute :
    ∃ code s', parseRequestline 0 { start with
        buffer := [103, 101, 116, 32, 32] ++ lower litHttp ++ [104, 47, 120, 32] ++ litVersion ++ [0, 1] } =
      some (code, s') ∧ code = .noRequest ∧ s'.printed = [.method, .url [47, 120]] := by
  have hm : ({ start with
      buffer := [103, 101, 116, 32, 32] ++ lower litHttp ++ [104, 47, 120, 32] ++ litVersion ++ [0, 1] } :
        Parser).buffer.drop 0 =
      ([103, 101, 116, 32, 32] ++ lower litHttp ++ [104, 47, 120, 32] ++ litVersion) ++ 0 :: [1] := rfl
  have hline : IsRequestlineOf ([103, 101, 116, 32, 32] ++ lower litHttp ++ [104, 47, 120, 32] ++ litVersion)
      (lower litHttp ++ [104, 47, 120]) :=
    ⟨[103, 101, 116], [32, 32], [32], litVersion, rfl, rfl, by simp, by simp [blanks], by simp,
      by simp [lower, litHttp, toLower, blanks], by simp, by simp [blanks], rfl⟩
  have hpath : HasPath (lower litHttp ++ [104, 47, 120]) [47, 120] :=
    .inr ⟨rfl, by simp [lower, litHttp, slash], rfl⟩
  obtain ⟨code, s', h1, -, h2, h3, -⟩ := parseRequestline_decides hm (by decide)
  exact ⟨code, s', h1, (h2.mpr ⟨_, _, hline, hpath⟩).1, h3 _ _ hline hpath⟩

/-! ## The lines -/

variable {s : Scan} {u w : List UInt8}

theorem notEol_of_line (h : cr ∉ w ∧ lf ∉ w) : ∀ c ∈ w, notEol c = true := by
  intro c hc
  simp only [notEol, decide_eq_true_eq]
  exact ⟨fun e => h.1 (e ▸ hc), fun e => h.2 (e ▸ hc)⟩

theorem line_of_notEol (h : ∀ c ∈ w, notEol c = true) : cr ∉ w ∧ lf ∉ w :=
  ⟨fun hc => by simpa [notEol] using h cr hc, fun hc => by simpa [notEol] using h lf hc⟩

/-- A line and its CRLF. -/
theorem feed_whole_line (hcode : s.code = .noRequest) (hcr : s.sawCr = false) (hw : cr ∉ w ∧ lf ∉ w) :
    (w ++ cr :: lf :: u).foldl feed s = u.foldl feed (s.push w).endLine := by
  have hcode' : (s.push w).code = .noRequest := hcode
  rw [List.foldl_append, feed_line hcode hcr (notEol_of_line hw), List.foldl_cons, feed_cr hcode' hcr,
    List.foldl_cons, feed_crlf hcode']

/-- Bytes that lead to `GET_REQUEST` begin with a line. -/
theorem exists_line_of_feed (hcode : s.code = .noRequest) (hcr : s.sawCr = false)
    (h : (u.foldl feed s).code = .getRequest) :
    ∃ w v, u = w ++ cr :: lf :: v ∧ (cr ∉ w ∧ lf ∉ w) ∧
      (v.foldl feed (s.push w).endLine).code = .getRequest := by
  rcases span_cases notEol u with ⟨hw, -, -⟩ | ⟨w, c, v, rfl, hw, hc, -, -⟩
  · -- without an end of line the scanner still waits
    rw [feed_line hcode hcr hw] at h
    simp [Scan.push, hcode] at h
  · have hcode' : (s.push w).code = .noRequest := hcode
    rw [List.foldl_append, feed_line hcode hcr hw, List.foldl_cons] at h
    obtain rfl | rfl : c = lf ∨ c = cr := by
      by_contra h
      simp_all [notEol]
    · rw [feed_lf_bad hcode' hcr, feed_done (by simp)] at h
      simp at h
    · rw [feed_cr hcode' hcr] at h
      cases v with
      | nil => simp [hcode'] at h
      | cons d v =>
        rw [List.foldl_cons] at h
        by_cases hd : d = lf
        · subst hd
          rw [feed_crlf hcode'] at h
          exact ⟨w, v, rfl, line_of_notEol hw, h⟩
        · rw [feed_cr_bad hcode' hd, feed_done (by simp)] at h
          simp at h

/-- The scanner at the start of a header line. -/
structure AtHeader (s : Scan) : Prop where
  code : s.code = .noRequest
  checkstate : s.checkstate = .header
  line : s.line = []
  sawCr : s.sawCr = false

theorem AtHeader.endLine (h : AtHeader s) (hw : cstr w ≠ []) : AtHeader (s.push w).endLine := by
  have hline : (s.push w).line = w := by simp [Scan.push, h.line]
  have hstate : (s.push w).checkstate = .header := h.checkstate
  have hend : (s.push w).endLine =
      { (s.push w).nextLine with printed := (s.push w).printed ++ headerOutput (cstr w) } := by
    simp only [Scan.endLine, hstate, hline, hw, if_false]
  rw [hend]
  exact ⟨h.code, hstate, rfl, rfl⟩

theorem AtHeader.endLine_last (h : AtHeader s) (hw : cstr w = []) :
    (s.push w).endLine.code = .getRequest := by
  have hline : (s.push w).line = w := by simp [Scan.push, h.line]
  have hstate : (s.push w).checkstate = .header := h.checkstate
  simp only [Scan.endLine, hstate, hline, hw, if_true]

theorem feed_headers (h : AtHeader s) : (u.foldl feed s).code = .getRequest ↔
    ∃ headers last rest, u = lines (headers ++ [last]) ++ rest ∧
      (∀ w ∈ headers ++ [last], cr ∉ w ∧ lf ∉ w) ∧ (∀ w ∈ headers, cstr w ≠ []) ∧ cstr last = [] := by
  constructor
  · -- one line at a time, by induction on the bytes left
    intro hget
    induction hk : u.length using Nat.strong_induction_on generalizing u s with
    | _ k ih =>
    obtain ⟨w, v, rfl, hw, hv⟩ := exists_line_of_feed h.code h.sawCr hget
    by_cases hlast : cstr w = []
    · exact ⟨[], w, v, by simp [lines], by simpa using hw, by simp, hlast⟩
    · obtain ⟨headers, last, rest, rfl, h1, h2, h3⟩ :=
        ih v.length (by simp at hk; omega) (h.endLine hlast) hv rfl
      refine ⟨w :: headers, last, rest, by simp [lines], ?_, ?_, h3⟩
      · rw [List.cons_append, List.forall_mem_cons]
        exact ⟨hw, h1⟩
      · exact List.forall_mem_cons.mpr ⟨hlast, h2⟩
  · rintro ⟨headers, last, rest, rfl, h1, h2, h3⟩
    induction headers generalizing s with
    | nil =>
      have hu : lines ([] ++ [last]) ++ rest = last ++ cr :: lf :: rest := by simp [lines]
      have hend := h.endLine_last h3
      rw [hu, feed_whole_line h.code h.sawCr (h1 last (by simp)), feed_done (by simp [hend])]
      exact hend
    | cons w headers ih =>
      have hu : lines (w :: headers ++ [last]) ++ rest =
          w ++ cr :: lf :: (lines (headers ++ [last]) ++ rest) := by simp [lines]
      rw [hu, feed_whole_line h.code h.sawCr (h1 w (by simp))]
      exact ih (h.endLine (h2 w (by simp))) (fun v hv => h1 v (by simp at hv ⊢; tauto))
        fun v hv => h2 v (by simp [hv])

theorem requestline_endLine {path : List UInt8} (hpath : requestPath (cstr w) = some path) :
    AtHeader (Scan.start.push w).endLine := by
  have hend : (Scan.start.push w).endLine = { (Scan.start.push w).nextLine with
      checkstate := .header
      printed := (Scan.start.push w).printed ++ [.method, .url path] } := by
    simp [Scan.endLine, Scan.push, Scan.start, hpath]
  rw [hend]
  exact ⟨rfl, rfl, rfl, rfl⟩

theorem requestline_endLine_bad (hpath : requestPath (cstr w) = none) :
    (Scan.start.push w).endLine.code = .badRequest := by
  simp [Scan.endLine, Scan.push, Scan.start, hpath]

/-- The parser accepts the requests whose lines are, as C strings, a request line,
header lines and an empty line. -/
theorem accepts_iff_cstringRequest (input : List UInt8) (hlen : input.length ≤ bufferSize) :
    Accepts input ↔ CStringRequest input := by
  rw [accepts_iff_feed hlen]
  constructor
  · intro hget
    obtain ⟨r, v, rfl, hr, hv⟩ := exists_line_of_feed rfl rfl hget
    cases hpath : requestPath (cstr r) with
    | none =>
      have hbad := requestline_endLine_bad hpath
      rw [feed_done (by simp [hbad]), hbad] at hv
      cases hv
    | some path =>
      obtain ⟨headers, last, rest, rfl, h1, h2, h3⟩ := (feed_headers (requestline_endLine hpath)).mp hv
      refine ⟨r, headers, last, rest, by simp [lines], ?_, ?_, h2, h3⟩
      · rw [List.cons_append, List.forall_mem_cons]
        exact ⟨hr, h1⟩
      · exact (requestPath_isSome _).mp (by simp [hpath])
  · rintro ⟨r, headers, last, rest, rfl, h1, hr, h2, h3⟩
    rw [List.cons_append, List.forall_mem_cons] at h1
    obtain ⟨path, hpath⟩ := Option.isSome_iff_exists.mp ((requestPath_isSome _).mpr hr)
    have hu : lines (r :: headers ++ [last]) ++ rest =
        r ++ cr :: lf :: (lines (headers ++ [last]) ++ rest) := by simp [lines]
    rw [hu, feed_whole_line rfl rfl h1.1]
    exact (feed_headers (requestline_endLine hpath)).mpr ⟨headers, last, rest, rfl, h1.2, h2, h3⟩

/-- `GET / HTTP/1.1`. -/
def getSlash : List UInt8 := litGet ++ [32, slash, 32] ++ litVersion

theorem accepts_getSlash : Accepts (lines [getSlash, []]) ↔ CStringRequest (lines [getSlash, []]) :=
  accepts_iff_cstringRequest _ (by decide)

/-- A NUL in the target: by bytes a request, but the string of its line ends before
the version. -/
theorem not_accepts_iff_request :
    ¬ ∀ input : List UInt8, input.length ≤ bufferSize → (Accepts input ↔ Request input) := by
  intro h
  have hreq : Request (lines [litGet ++ [32, slash, 0, 32] ++ litVersion, []]) :=
    ⟨_, [], [], rfl, by simp [litGet, litVersion, cr, lf, slash],
      ⟨litGet, [32], [slash, 0], [32], litVersion, rfl, rfl, by simp, by simp [blanks],
        by simp [blanks, slash], .inl rfl, by simp, by simp [blanks], rfl⟩,
      by simp⟩
  have hacc := (accepts_iff_feed (by decide)).mp ((h _ (by decide)).mpr hreq)
  revert hacc
  decide

end LinuxServer.Http
