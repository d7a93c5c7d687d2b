import LinuxServer.HttpParser

namespace LinuxServer.Http
open CString

def isBlank (c : UInt8) : Bool := decide (c ∈ blanks)
def notBlank (c : UInt8) : Bool := decide (c ∉ blanks)
def notSlash (c : UInt8) : Bool := decide (c ≠ slash)

/-- What `parse_requestline` prints for the target `t` of a request line, if it accepts it. -/
def targetPath (t : List UInt8) : Option (List UInt8) :=
  let u := if lower (t.take 7) = lower litHttp then (t.drop 7).dropWhile notSlash else t
  if u.head? = some slash then some u else none

/-- What it prints for the line from the target on. -/
def versionPath (r : List UInt8) : Option (List UInt8) :=
  let v := r.dropWhile notBlank
  if v = [] ∨ lower (v.dropWhile isBlank) ≠ lower litVersion then none
  else targetPath (r.takeWhile notBlank)

/-- What `parse_requestline` prints for a line, if it accepts it. -/
def requestPath (r : List UInt8) : Option (List UInt8) :=
  let u := r.dropWhile notBlank
  if u = [] ∨ lower (r.takeWhile notBlank) ≠ lower litGet then none
  else versionPath (u.dropWhile isBlank)

/-- What it prints before it rejects a line. -/
def methodOutput (r : List UInt8) : List Printed :=
  if r.dropWhile notBlank = [] ∨ lower (r.takeWhile notBlank) ≠ lower litGet then [] else [.method]

/-- Memory changed at most in the `n` bytes from `p` on. -/
structure WroteWithin (m m' : List UInt8) (p n : ℕ) : Prop where
  length : m'.length = m.length
  before : m'.take p = m.take p
  after : m'.drop (p + n) = m.drop (p + n)

theorem WroteWithin.refl (m : List UInt8) (p n : ℕ) : WroteWithin m m p n := ⟨rfl, rfl, rfl⟩

theorem WroteWithin.trans {m m' m'' : List UInt8} {p n : ℕ} (h : WroteWithin m m' p n)
    (h' : WroteWithin m' m'' p n) : WroteWithin m m'' p n :=
  ⟨h'.length.trans h.length, h'.before.trans h.before, h'.after.trans h.after⟩

theorem WroteWithin.widen {m m' : List UInt8} {p n q k : ℕ} (h : WroteWithin m m' q k) (hq : p ≤ q)
    (hk : q + k ≤ p + n) : WroteWithin m m' p n := by
  refine ⟨h.length, ?_, ?_⟩
  · have := congrArg (List.take p) h.before
    rwa [List.take_take, List.take_take, min_eq_left hq] at this
  · have := congrArg (List.drop (p + n - (q + k))) h.after
    rwa [List.drop_drop, List.drop_drop, Nat.add_sub_cancel' hk] at this

theorem write_within {m a b : List UInt8} {p : ℕ} {c x : UInt8} (h : m.drop p = a ++ c :: b) :
    ∃ m', write m (p + a.length) x = some m' ∧ m'.drop p = a ++ x :: b ∧
      WroteWithin m m' p (a.length + 1) := by
  obtain ⟨m', h1, h2, h3, h4⟩ := write_spec (x := x) h
  refine ⟨m', h1, h4, h2, h3, ?_⟩
  rw [← Nat.add_assoc, drop_succ h4, drop_succ h]

theorem zero_notMem_blanks : (0 : UInt8) ∉ blanks := by decide

/-- `strspn` skips the blanks at the start of a string. -/
theorem strspn_blanks {m r rest : List UInt8} {p : ℕ} (hm : m.drop p = r ++ 0 :: rest) :
    ∃ k, strspn m p blanks = some k ∧ m.drop (p + k) = r.dropWhile isBlank ++ 0 :: rest ∧
      k + (r.dropWhile isBlank).length = r.length := by
  rcases span_cases isBlank r with ⟨h1, -, h3⟩ | ⟨a, c, b, rfl, h2, h3, -, h5⟩
  · refine ⟨r.length, strspn_spec hm (fun x hx => by simpa [isBlank] using h1 x hx)
      zero_notMem_blanks, ?_, by simp [h3]⟩
    rw [h3]
    exact drop_add hm
  · rw [h5]
    rw [List.append_assoc, List.cons_append] at hm
    exact ⟨a.length, strspn_spec hm (fun x hx => by simpa [isBlank] using h2 x hx)
      (by simpa [isBlank] using h3), drop_add hm, by simp⟩

variable {s : Parser} {p : ℕ} {r t rest : List UInt8}

theorem parseUrl_spec (hm : s.buffer.drop p = t ++ 0 :: rest) (h0 : 0 ∉ t) :
    parseUrl p s = some (match targetPath t with
      | some u => (.noRequest, { s with
          checkstate := .header
          printed := s.printed ++ [.url u] })
      | none => (.badRequest, s)) := by
  have hcmp := strncasecmp_spec litHttp hm h0 (by decide)
  rw [show litHttp.length = 7 from rfl] at hcmp
  by_cases hhttp : lower (t.take 7) = lower litHttp
  · -- the prefix is all there, so `url += 7` stays inside the string
    have hlen : 7 ≤ t.length := by
      have := congrArg List.length hhttp
      simp [lower, litHttp] at this
      omega
    have hm7 : s.buffer.drop (p + 7) = t.drop 7 ++ 0 :: rest := by
      rw [← List.drop_drop, hm, List.drop_append_of_le_length hlen]
    have h07 : 0 ∉ t.drop 7 := fun h => h0 (List.mem_of_mem_drop h)
    rcases span_cases notSlash (t.drop 7) with ⟨h1, -, h3⟩ | ⟨a, c, u, hau, h2, h3, -, h5⟩
    · have hchr := strpbrk_none [slash] hm7 h07
        (fun x hx => by simpa [notSlash] using h1 x hx)
      simp [parseUrl, hcmp, hhttp, strchr, hchr, targetPath, h3]
    · obtain rfl : c = slash := by simpa [notSlash] using h3
      rw [hau] at hm7 h07
      rw [List.append_assoc, List.cons_append] at hm7
      have hchr := strpbrk_some [slash] hm7 (fun h => h07 (by simp [h]))
        (fun x hx => by simpa [notSlash] using h2 x hx) (by decide) (by simp)
      have hu := str_spec (s := slash :: u) (drop_add hm7) (fun h => h07 (by simp [h]))
      simp [parseUrl, hcmp, hhttp, strchr, hchr, getElem?_of_drop hm7, hu, targetPath, h5]
  · rw [decide_eq_false hhttp] at hcmp
    have ht : targetPath t = if t.head? = some slash then some t else none := by
      rw [targetPath, if_neg hhttp]
    cases t with
    | nil =>
      have hget : s.buffer[p]? = some 0 := by simpa using getElem?_of_drop (a := []) hm
      simp [parseUrl, hcmp, hget, ht, slash]
    | cons c u =>
      have hget : s.buffer[p]? = some c := by
        simpa using getElem?_of_drop (a := []) (b := u ++ 0 :: rest) hm
      by_cases hc : c = slash
      · have hstr := str_spec hm h0
        subst hc
        simp [parseUrl, hcmp, hget, hstr, ht]
      · simp [parseUrl, hcmp, hget, hc, ht]

theorem parseVersion_spec (hm : s.buffer.drop p = r ++ 0 :: rest) (h0 : 0 ∉ r) :
    ∃ b, WroteWithin s.buffer b p r.length ∧
      parseVersion p s = some (match versionPath r with
        | some u => (.noRequest, { s with
            buffer := b
            checkstate := .header
            printed := s.printed ++ [.url u] })
        | none => (.badRequest, { s with buffer := b })) := by
  rcases span_cases notBlank r with ⟨h1, -, h3⟩ | ⟨t, c, v, rfl, h2, h3, h4, h5⟩
  · have hpb := strpbrk_none blanks hm h0 (fun x hx => by simpa [notBlank] using h1 x hx)
    exact ⟨s.buffer, .refl _ _ _, by simp [parseVersion, hpb, versionPath, h3]⟩
  · have hc : c ∈ blanks := by simpa [notBlank] using h3
    have hc0 : c ≠ 0 := by rintro rfl; exact zero_notMem_blanks hc
    have ht0 : 0 ∉ t := fun h => h0 (by simp [h])
    have hv0 : 0 ∉ v.dropWhile isBlank := fun h =>
      h0 (by simp [(List.dropWhile_sublist _).subset h])
    rw [List.append_assoc, List.cons_append] at hm
    have hpb := strpbrk_some blanks hm ht0
      (fun x hx => by simpa [notBlank] using h2 x hx) hc0 hc
    -- the NUL written over the blank ends the target, and the version begins behind it
    obtain ⟨b, hb1, hb2, hb3⟩ := write_within (x := 0) hm
    obtain ⟨k, hk1, hk2, -⟩ := strspn_blanks (drop_succ hb2)
    have hcmp := strcasecmp_spec litVersion hk2 hv0 (by decide)
    have hurl := parseUrl_spec (s := { s with buffer := b }) hb2 ht0
    have hcb : isBlank c = true := by simpa [isBlank] using hc
    refine ⟨b, hb3.widen le_rfl (by simp), ?_⟩
    simp only [parseVersion, hpb, hb1, hk1, hcmp, hurl, versionPath, h4, h5, Option.bind_eq_bind,
      Option.bind_some, List.dropWhile_cons_of_pos hcb, reduceCtorEq, false_or, ne_eq]
    by_cases hver : lower (v.dropWhile isBlank) = lower litVersion <;> simp [hver]

/-- `parse_requestline` on the line `r`: it accepts the lines that have a path. -/
theorem parseRequestline_spec (hm : s.buffer.drop p = r ++ 0 :: rest) (h0 : 0 ∉ r) :
    ∃ b, WroteWithin s.buffer b p r.length ∧
      parseRequestline p s = some (match requestPath r with
        | some u => (.noRequest, { s with
            buffer := b
            checkstate := .header
            printed := s.printed ++ [.method, .url u] })
        | none => (.badRequest, { s with
            buffer := b
            printed := s.printed ++ methodOutput r })) := by
  rcases span_cases notBlank r with ⟨h1, -, h3⟩ | ⟨g, c, u, rfl, h2, h3, h4, h5⟩
  · have hpb := strpbrk_none blanks hm h0 (fun x hx => by simpa [notBlank] using h1 x hx)
    exact ⟨s.buffer, .refl _ _ _, by simp [parseRequestline, hpb, requestPath, methodOutput, h3]⟩
  · have hc : c ∈ blanks := by simpa [notBlank] using h3
    have hc0 : c ≠ 0 := by rintro rfl; exact zero_notMem_blanks hc
    have hg0 : 0 ∉ g := fun h => h0 (by simp [h])
    have hu0 : 0 ∉ u.dropWhile isBlank := fun h =>
      h0 (by simp [(List.dropWhile_sublist _).subset h])
    rw [List.append_assoc, List.cons_append] at hm
    have hpb := strpbrk_some blanks hm hg0
      (fun x hx => by simpa [notBlank] using h2 x hx) hc0 hc
    obtain ⟨b, hb1, hb2, hb3⟩ := write_within (x := 0) hm
    have hcmp := strcasecmp_spec litGet hb2 hg0 (by decide)
    obtain ⟨k, hk1, hk2, hk3⟩ := strspn_blanks (drop_succ hb2)
    obtain ⟨b', hb4, hver⟩ := parseVersion_spec
      (s := { s with
        buffer := b
        printed := s.printed ++ [.method] }) hk2 hu0
    have hcb : isBlank c = true := by simpa [isBlank] using hc
    by_cases hget : lower g = lower litGet
    · refine ⟨b', (hb3.widen le_rfl (by simp)).trans (hb4.widen (by omega) (by simp; omega)), ?_⟩
      cases hpath : versionPath (u.dropWhile isBlank) <;>
        simp [parseRequestline, hpb, hb1, hcmp, hget, hk1, hver, requestPath, methodOutput, h4, h5, hcb,
          hpath]
    · refine ⟨b, hb3.widen le_rfl (by simp), ?_⟩
      simp [parseRequestline, hpb, hb1, hcmp, hget, requestPath, methodOutput, h4, h5]

/-- What `parse_headers` prints for a header line. -/
def headerOutput (r : List UInt8) : List Printed :=
  if lower (r.take 5) = lower litHost then [.host ((r.drop 5).dropWhile isBlank)] else [.otherHeader]

theorem parseHeaders_spec (hm : s.buffer.drop p = r ++ 0 :: rest) (h0 : 0 ∉ r) :
    parseHeaders p s = some (if r = [] then (.getRequest, s)
      else (.noRequest, { s with printed := s.printed ++ headerOutput r })) := by
  have hcmp := strncasecmp_spec litHost hm h0 (by decide)
  rw [show litHost.length = 5 from rfl] at hcmp
  cases r with
  | nil =>
    have hget : s.buffer[p]? = some 0 := by simpa using getElem?_of_drop (a := []) hm
    simp [parseHeaders, hget]
  | cons c u =>
    have hget : s.buffer[p]? = some c := by
      simpa using getElem?_of_drop (a := []) (b := u ++ 0 :: rest) hm
    have hc : c ≠ 0 := by rintro rfl; simp at h0
    by_cases hhost : lower ((c :: u).take 5) = lower litHost
    · have hlen : 5 ≤ (c :: u).length := by
        have := congrArg List.length hhost
        simp [lower, litHost] at this
        simp only [List.length_cons]
        omega
      have hm5 : s.buffer.drop (p + 5) = (c :: u).drop 5 ++ 0 :: rest := by
        rw [← List.drop_drop, hm, List.drop_append_of_le_length hlen]
      obtain ⟨k, hk1, hk2, -⟩ := strspn_blanks hm5
      have hstr := str_spec hk2 fun h => h0 (List.mem_of_mem_drop ((List.dropWhile_sublist _).subset h))
      rw [decide_eq_true hhost] at hcmp
      rw [headerOutput, if_pos hhost]
      simp [parseHeaders, hget, hc, hcmp, hk1, hstr]
    · rw [decide_eq_false hhost] at hcmp
      rw [headerOutput, if_neg hhost]
      simp [parseHeaders, hget, hc, hcmp]

end LinuxServer.Http
