import LinuxServer.HttpParser

/-!
# The parser on a part of its buffer

A function that has a result when only a part of the buffer is there has that result on the
whole of it, and leaves the rest alone.
-/

namespace LinuxServer.Http
open CString

/-- The parser with its buffer a part of a larger one. -/
def Parser.within (pre suf : List UInt8) (s : Parser) : Parser :=
  { s with buffer := pre ++ (s.buffer ++ suf) }

variable {pre suf : List UInt8} {p : ℕ} {s s' : Parser} {r : HttpCode} {status : LineStatus} {n : ℕ}

/-- A result that leaves the buffer as it is. -/
theorem some_within {α : Type} {x y : α} (h : some (x, s) = some (y, s')) :
    some (x, s.within pre suf) = some (y, s'.within pre suf) := by
  obtain ⟨rfl, rfl⟩ := Prod.mk.inj (Option.some.inj h)
  rfl

theorem parseUrl_frame (h : parseUrl p s = some (r, s')) :
    parseUrl (pre.length + p) (s.within pre suf) = some (r, s'.within pre suf) := by
  unfold parseUrl at h ⊢
  obtain ⟨isHttp, h1, h⟩ := Option.bind_eq_some_iff.mp h
  obtain ⟨szURL, h2, h⟩ := Option.bind_eq_some_iff.mp h
  have h2' : (if isHttp then strchr (s.within pre suf).buffer (pre.length + p + 7) slash
      else some (some (pre.length + p))) = some (szURL.map (pre.length + ·)) := by
    cases isHttp with
    | false =>
      rw [if_neg Bool.false_ne_true] at h2 ⊢
      rw [← Option.some.inj h2]
      rfl
    | true =>
      rw [if_pos rfl] at h2 ⊢
      rw [Nat.add_assoc]
      exact strpbrk_frame h2
  simp only [Option.bind_eq_bind, Parser.within] at h2' ⊢
  rw [strncasecmp_frame h1, Option.bind_some, h2', Option.bind_some]
  cases szURL with
  | none => exact some_within h
  | some szURL =>
    obtain ⟨c, h3, h⟩ := Option.bind_eq_some_iff.mp h
    simp only [Option.map_some, getElem?_frame h3, Option.bind_some]
    by_cases hc : c ≠ slash
    · rw [if_pos hc] at h ⊢
      exact some_within h
    · rw [if_neg hc] at h ⊢
      obtain ⟨url, h4, h⟩ := Option.bind_eq_some_iff.mp h
      rw [str_frame h4]
      exact some_within h

theorem parseVersion_frame (h : parseVersion p s = some (r, s')) :
    parseVersion (pre.length + p) (s.within pre suf) = some (r, s'.within pre suf) := by
  unfold parseVersion at h ⊢
  obtain ⟨szVersion, h1, h⟩ := Option.bind_eq_some_iff.mp h
  simp only [Option.bind_eq_bind, Parser.within]
  rw [strpbrk_frame h1, Option.bind_some]
  cases szVersion with
  | none => exact some_within h
  | some szVersion =>
    obtain ⟨b, h2, h⟩ := Option.bind_eq_some_iff.mp h
    obtain ⟨k, h3, h⟩ := Option.bind_eq_some_iff.mp h
    obtain ⟨isVersion, h4, h⟩ := Option.bind_eq_some_iff.mp h
    have hs : pre.length + szVersion + 1 = pre.length + (szVersion + 1) := Nat.add_assoc ..
    have hk : pre.length + (szVersion + 1) + k = pre.length + (szVersion + 1 + k) := Nat.add_assoc ..
    simp only [Option.map_some, write_frame h2, Option.bind_some]
    rw [hs, strspn_frame h3, Option.bind_some, hk, strcasecmp_frame h4, Option.bind_some]
    cases isVersion with
    | false => exact some_within h
    | true => exact parseUrl_frame h

theorem parseRequestline_frame (h : parseRequestline p s = some (r, s')) :
    parseRequestline (pre.length + p) (s.within pre suf) = some (r, s'.within pre suf) := by
  unfold parseRequestline at h ⊢
  obtain ⟨szURL, h1, h⟩ := Option.bind_eq_some_iff.mp h
  simp only [Option.bind_eq_bind, Parser.within]
  rw [strpbrk_frame h1, Option.bind_some]
  cases szURL with
  | none => exact some_within h
  | some szURL =>
    obtain ⟨b, h2, h⟩ := Option.bind_eq_some_iff.mp h
    obtain ⟨isGet, h3, h⟩ := Option.bind_eq_some_iff.mp h
    simp only [Option.map_some, write_frame h2, strcasecmp_frame h3, Option.bind_some]
    cases isGet with
    | false => exact some_within h
    | true =>
      obtain ⟨k, h4, h⟩ := Option.bind_eq_some_iff.mp h
      have hs : pre.length + szURL + 1 = pre.length + (szURL + 1) := Nat.add_assoc ..
      have hk : pre.length + (szURL + 1) + k = pre.length + (szURL + 1 + k) := Nat.add_assoc ..
      simp only [Bool.not_true, Bool.false_eq_true, if_false]
      rw [hs, strspn_frame h4, Option.bind_some, hk]
      exact parseVersion_frame h

theorem parseHeaders_frame (h : parseHeaders p s = some (r, s')) :
    parseHeaders (pre.length + p) (s.within pre suf) = some (r, s'.within pre suf) := by
  unfold parseHeaders at h ⊢
  obtain ⟨c, h1, h⟩ := Option.bind_eq_some_iff.mp h
  simp only [Option.bind_eq_bind, Parser.within]
  rw [getElem?_frame h1, Option.bind_some]
  by_cases hc : c = 0
  · rw [if_pos hc] at h ⊢
    exact some_within h
  · rw [if_neg hc] at h ⊢
    obtain ⟨isHost, h2, h⟩ := Option.bind_eq_some_iff.mp h
    rw [strncasecmp_frame h2, Option.bind_some]
    cases isHost with
    | false => exact some_within h
    | true =>
      obtain ⟨k, h3, h⟩ := Option.bind_eq_some_iff.mp h
      obtain ⟨host, h4, h⟩ := Option.bind_eq_some_iff.mp h
      obtain ⟨rfl, rfl⟩ := Prod.mk.inj (Option.some.inj h)
      simp only [if_true]
      rw [Nat.add_assoc pre.length, strspn_frame h3, Option.bind_some, Nat.add_assoc pre.length, str_frame h4]
      rfl

/-- `parse_line` with more bytes behind its buffer. -/
theorem parseLineLoop_frame (h : parseLineLoop n s = some (status, s')) :
    parseLineLoop n (s.within [] suf) = some (status, s'.within [] suf) := by
  have get : ∀ {b : List UInt8} {i : ℕ} {c : UInt8}, b[i]? = some c → ([] ++ (b ++ suf))[i]? = some c := by
    intro b i c hi
    have h : ([] ++ (b ++ suf))[([] : List UInt8).length + i]? = some c := getElem?_frame hi
    simpa only [List.length_nil, Nat.zero_add] using h
  have put : ∀ {b b' : List UInt8} {i : ℕ}, write b i 0 = some b' →
      write ([] ++ (b ++ suf)) i 0 = some ([] ++ (b' ++ suf)) := by
    intro b b' i hi
    have h : write ([] ++ (b ++ suf)) (([] : List UInt8).length + i) 0 = some ([] ++ (b' ++ suf)) :=
      write_frame hi
    simpa only [List.length_nil, Nat.zero_add] using h
  induction n generalizing s with
  | zero => exact some_within h
  | succ n ih =>
    unfold Parser.within
    rw [parseLineLoop] at h ⊢
    obtain ⟨temp, h1, h⟩ := Option.bind_eq_some_iff.mp h
    simp only [Option.bind_eq_bind]
    rw [get h1, Option.bind_some]
    by_cases hcr : temp = cr
    · rw [if_pos hcr] at h ⊢
      by_cases hlast : s.checkedIndex + 1 = s.readIndex
      · rw [if_pos hlast] at h ⊢
        exact some_within h
      · rw [if_neg hlast] at h ⊢
        obtain ⟨c, h2, h⟩ := Option.bind_eq_some_iff.mp h
        rw [get h2, Option.bind_some]
        by_cases hlf : c = lf
        · rw [if_pos hlf] at h ⊢
          obtain ⟨b, h3, h⟩ := Option.bind_eq_some_iff.mp h
          obtain ⟨b', h4, h⟩ := Option.bind_eq_some_iff.mp h
          rw [put h3, Option.bind_some, put h4]
          exact some_within h
        · rw [if_neg hlf] at h ⊢
          exact some_within h
    · rw [if_neg hcr] at h ⊢
      by_cases hlf : temp = lf
      · rw [if_pos hlf] at h ⊢
        by_cases hone : 1 < s.checkedIndex
        · rw [if_pos hone] at h ⊢
          obtain ⟨c, h2, h⟩ := Option.bind_eq_some_iff.mp h
          rw [get h2, Option.bind_some]
          by_cases hc : c = cr
          · rw [if_pos hc] at h ⊢
            obtain ⟨b, h3, h⟩ := Option.bind_eq_some_iff.mp h
            obtain ⟨b', h4, h⟩ := Option.bind_eq_some_iff.mp h
            rw [put h3, Option.bind_some, put h4]
            exact some_within h
          · rw [if_neg hc] at h ⊢
            exact some_within h
        · rw [if_neg hone] at h ⊢
          exact some_within h
      · rw [if_neg hlf] at h ⊢
        exact ih h

theorem parseLine_frame (h : parseLine s = some (status, s')) :
    parseLine (s.within [] suf) = some (status, s'.within [] suf) :=
  parseLineLoop_frame h

end LinuxServer.Http
