import Mathlib.Data.List.TakeDrop
import Mathlib.Data.List.TakeWhile

/-!
# C strings in a byte memory

A memory is a list of bytes and a `char*` an index into it.  Every function reads the
bytes one after the other and is `none` when it runs off the end of the memory, so that
a result on a memory says that nothing behind it was read.  The C locale is assumed.
-/

namespace LinuxServer.CString

/-- Store a byte. -/
def write (m : List UInt8) (i : ℕ) (c : UInt8) : Option (List UInt8) :=
  if i < m.length then some (m.set i c) else none

/-- The string at `p`, up to its terminating NUL. -/
def str (m : List UInt8) (p : ℕ) : Option (List UInt8) :=
  ((m.drop p).findIdx? (· = 0)).map fun k => (m.drop p).take k

/-- `strpbrk`: the first byte of the string that is one of `accept`, if any. -/
def strpbrk (m : List UInt8) (p : ℕ) (accept : List UInt8) : Option (Option ℕ) := do
  let k ← (m.drop p).findIdx? fun c => c = 0 || c ∈ accept
  let c ← m[p + k]?
  some (if c = 0 then none else some (p + k))

/-- `strchr` for a byte other than NUL. -/
def strchr (m : List UInt8) (p : ℕ) (c : UInt8) : Option (Option ℕ) := strpbrk m p [c]

/-- `strspn`: how many bytes of the string are, from its start, among `accept`. -/
def strspn (m : List UInt8) (p : ℕ) (accept : List UInt8) : Option ℕ :=
  (m.drop p).findIdx? fun c => decide (c ∉ accept)

/-- `tolower`. -/
def toLower (c : UInt8) : UInt8 := if 65 ≤ c ∧ c ≤ 90 then c + 32 else c

/-- Compare a string with a literal, case aside, down to the end of both. -/
def eqNoCase : List UInt8 → List UInt8 → Option Bool
  | [], _ => none
  | c :: _, [] => some (c = 0)
  | c :: m, l :: ls => if toLower c = toLower l then eqNoCase m ls else some false

/-- Compare the start of a string with a literal, case aside. -/
def startsNoCase : List UInt8 → List UInt8 → Option Bool
  | _, [] => some true
  | [], _ :: _ => none
  | c :: m, l :: ls => if toLower c = toLower l then startsNoCase m ls else some false

/-- `strcasecmp(p, lit) == 0`. -/
def strcasecmp (m : List UInt8) (p : ℕ) (lit : List UInt8) : Option Bool := eqNoCase (m.drop p) lit

/-- `strncasecmp(p, lit, strlen(lit)) == 0`. -/
def strncasecmp (m : List UInt8) (p : ℕ) (lit : List UInt8) : Option Bool :=
  startsNoCase (m.drop p) lit

/-- The string stored in the bytes of `line`: what precedes the first NUL. -/
def cstr (line : List UInt8) : List UInt8 := line.takeWhile (· ≠ 0)

/-- The same bytes, case aside. -/
def lower (s : List UInt8) : List UInt8 := s.map toLower

theorem zero_notMem_cstr (line : List UInt8) : 0 ∉ cstr line := fun h => by
  simpa using List.mem_takeWhile_imp h

/-- Whatever the bytes of a line, it is a string followed by a NUL, once a NUL follows it. -/
theorem exists_cstr_append (line rest : List UInt8) :
    ∃ rest', line ++ 0 :: rest = cstr line ++ 0 :: rest' := by
  induction line with
  | nil => exact ⟨rest, rfl⟩
  | cons c line ih =>
    by_cases hc : c = 0
    · subst hc
      exact ⟨line ++ 0 :: rest, by simp [cstr]⟩
    · obtain ⟨rest', h⟩ := ih
      refine ⟨rest', ?_⟩
      rw [List.cons_append, h]
      simp [cstr, hc]

theorem cstr_of_notMem {line : List UInt8} (h : 0 ∉ line) : cstr line = line :=
  List.takeWhile_eq_self_iff.mpr fun c hc => by
    simp only [decide_eq_true_eq]
    rintro rfl
    exact h hc

theorem toLower_eq_zero {c : UInt8} : toLower c = 0 ↔ c = 0 := by
  simp only [toLower, UInt8.le_iff_toNat_le, ← UInt8.toNat_inj]
  split
  · have : (c + 32).toNat = (c.toNat + 32) % 256 := by simp [UInt8.toNat_add]
    simp at *
    omega
  · rfl

/-- A list is all of one kind, or has a first element of the other kind. -/
theorem span_cases (f : UInt8 → Bool) (l : List UInt8) :
    ((∀ x ∈ l, f x = true) ∧ l.takeWhile f = l ∧ l.dropWhile f = []) ∨
      ∃ a c b, l = a ++ c :: b ∧ (∀ x ∈ a, f x = true) ∧ f c = false ∧
        l.takeWhile f = a ∧ l.dropWhile f = c :: b := by
  induction l with
  | nil => simp
  | cons x l ih =>
    cases hx : f x with
    | false => exact .inr ⟨[], x, l, rfl, by simp, hx, by simp [hx], by simp [hx]⟩
    | true =>
      rcases ih with ⟨h1, h2, h3⟩ | ⟨a, c, b, h1, h2, h3, h4, h5⟩
      · exact .inl ⟨by simpa [hx] using h1, by simp [hx, h2], by simp [hx, h3]⟩
      · refine .inr ⟨x :: a, c, b, by simp [h1], by simpa [hx] using h2, h3, ?_, ?_⟩
        · rw [List.takeWhile_cons_of_pos hx, h4]
        · rw [List.dropWhile_cons_of_pos hx, h5]

variable {m s rest accept lit : List UInt8} {p k : ℕ} {c x : UInt8}

theorem getElem?_of_drop {a b : List UInt8} (h : m.drop p = a ++ c :: b) :
    m[p + a.length]? = some c := by
  have : (m.drop p)[a.length]? = some c := by simp [h]
  rwa [List.getElem?_drop] at this

/-- Storing a byte changes that byte only. -/
theorem write_spec {a b : List UInt8} (h : m.drop p = a ++ c :: b) :
    ∃ m', write m (p + a.length) x = some m' ∧ m'.length = m.length ∧ m'.take p = m.take p ∧
      m'.drop p = a ++ x :: b := by
  have hlt : p + a.length < m.length := (List.getElem?_eq_some_iff.mp (getElem?_of_drop h)).1
  refine ⟨m.set (p + a.length) x, by simp [write, hlt], by simp, ?_, ?_⟩
  · rw [List.take_set_of_le (by omega)]
  · rw [List.drop_set, if_neg (by omega), Nat.add_sub_cancel_left, h]
    simp

theorem drop_add {a b : List UInt8} (h : m.drop p = a ++ b) : m.drop (p + a.length) = b := by
  rw [← List.drop_drop, h, List.drop_left]

theorem drop_succ {a b : List UInt8} (h : m.drop p = a ++ c :: b) :
    m.drop (p + a.length + 1) = b := by
  simpa [Nat.add_assoc] using drop_add (a := a ++ [c]) (b := b) (by simpa using h)

theorem findIdx?_append_cons {f : UInt8 → Bool} (hs : ∀ x ∈ s, f x = false) (hc : f c = true) :
    (s ++ c :: rest).findIdx? f = some s.length := by
  induction s with
  | nil => simp [List.findIdx?_cons, hc]
  | cons x s ih =>
    rw [List.cons_append, List.findIdx?_cons, hs x (by simp), ih fun y hy => hs y (by simp [hy])]
    simp

theorem strpbrk_none (accept : List UInt8) (hm : m.drop p = s ++ 0 :: rest) (h0 : 0 ∉ s)
    (hs : ∀ x ∈ s, x ∉ accept) : strpbrk m p accept = some none := by
  have hk : (m.drop p).findIdx? (fun c => c = 0 || c ∈ accept) = some s.length := by
    rw [hm]
    refine findIdx?_append_cons (fun x hx => ?_) (by simp)
    have hx0 : x ≠ 0 := by rintro rfl; exact h0 hx
    simp [hx0, hs x hx]
  simp [strpbrk, hk, getElem?_of_drop hm]

theorem strpbrk_some (accept : List UInt8) (hm : m.drop p = s ++ c :: rest) (h0 : 0 ∉ s)
    (hs : ∀ x ∈ s, x ∉ accept) (hc0 : c ≠ 0) (hc : c ∈ accept) :
    strpbrk m p accept = some (some (p + s.length)) := by
  have hk : (m.drop p).findIdx? (fun c => c = 0 || c ∈ accept) = some s.length := by
    rw [hm]
    refine findIdx?_append_cons (fun x hx => ?_) (by simp [hc])
    have hx0 : x ≠ 0 := by rintro rfl; exact h0 hx
    simp [hx0, hs x hx]
  simp [strpbrk, hk, getElem?_of_drop hm, hc0]

theorem strspn_spec (hm : m.drop p = s ++ c :: rest) (hs : ∀ x ∈ s, x ∈ accept) (hc : c ∉ accept) :
    strspn m p accept = some s.length := by
  rw [strspn, hm]
  exact findIdx?_append_cons (fun x hx => by simp [hs x hx]) (by simp [hc])

theorem str_spec (hm : m.drop p = s ++ 0 :: rest) (h0 : 0 ∉ s) : str m p = some s := by
  have hk : (m.drop p).findIdx? (fun c => decide (c = 0)) = some s.length := by
    rw [hm]
    refine findIdx?_append_cons (fun x hx => ?_) (by simp)
    have hx0 : x ≠ 0 := by rintro rfl; exact h0 hx
    simp [hx0]
  rw [str, hk]
  simp [hm]

/-- A string in a buffer that was cleared before. -/
theorem str_zeros (u : List UInt8) {n : ℕ} (hn : 0 < n) : str (u ++ List.replicate n 0) 0 = some (cstr u) := by
  obtain ⟨n, rfl⟩ := Nat.exists_eq_add_of_lt hn
  obtain ⟨rest, hrest⟩ := exists_cstr_append u (List.replicate (0 + n) 0)
  have hm : (u ++ List.replicate (0 + n + 1) 0).drop 0 = cstr u ++ 0 :: rest := by
    rw [List.drop_zero, List.replicate_succ, hrest]
  exact str_spec hm (zero_notMem_cstr u)

theorem eqNoCase_spec (h0 : 0 ∉ s) (hl : 0 ∉ lit) :
    eqNoCase (s ++ 0 :: rest) lit = some (decide (lower s = lower lit)) := by
  induction s generalizing lit with
  | nil =>
    cases lit with
    | nil => rfl
    | cons l ls =>
      have hl0 : toLower l ≠ 0 := fun h => hl (by simp [toLower_eq_zero.mp h])
      simp [eqNoCase, lower, show toLower 0 = 0 from rfl, Ne.symm hl0]
  | cons c s ih =>
    cases lit with
    | nil =>
      have hc : c ≠ 0 := by rintro rfl; simp at h0
      simp [eqNoCase, lower, hc]
    | cons l ls =>
      rw [List.cons_append, eqNoCase]
      split
      next h =>
        rw [ih (fun hm => h0 (by simp [hm])) (fun hm => hl (by simp [hm]))]
        exact congrArg some (decide_eq_decide.mpr (by simp [lower, h]))
      next h => simp [lower, h]

theorem startsNoCase_spec (h0 : 0 ∉ s) (hl : 0 ∉ lit) :
    startsNoCase (s ++ 0 :: rest) lit = some (decide (lower (s.take lit.length) = lower lit)) := by
  induction s generalizing lit with
  | nil =>
    cases lit with
    | nil => rfl
    | cons l ls =>
      have hl0 : toLower l ≠ 0 := fun h => hl (by simp [toLower_eq_zero.mp h])
      simp [startsNoCase, lower, show toLower 0 = 0 from rfl, Ne.symm hl0]
  | cons c s ih =>
    cases lit with
    | nil => rfl
    | cons l ls =>
      rw [List.cons_append, startsNoCase]
      split
      next h =>
        rw [ih (fun hm => h0 (by simp [hm])) (fun hm => hl (by simp [hm]))]
        exact congrArg some (decide_eq_decide.mpr (by simp [lower, h]))
      next h => simp [lower, h]

theorem strcasecmp_spec (lit : List UInt8) (hm : m.drop p = s ++ 0 :: rest) (h0 : 0 ∉ s) (hl : 0 ∉ lit) :
    strcasecmp m p lit = some (decide (lower s = lower lit)) := by
  rw [strcasecmp, hm, eqNoCase_spec h0 hl]

theorem strncasecmp_spec (lit : List UInt8) (hm : m.drop p = s ++ 0 :: rest) (h0 : 0 ∉ s) (hl : 0 ∉ lit) :
    strncasecmp m p lit = some (decide (lower (s.take lit.length) = lower lit)) := by
  rw [strncasecmp, hm, startsNoCase_spec h0 hl]

/-! ## Parts of a memory

A result on a part of a memory is the result on the whole of it, and what is stored is
stored in that part. -/

section frame

variable {pre suf m' : List UInt8} {i : ℕ}

theorem drop_frame (h : p ≤ m.length) :
    (pre ++ (m ++ suf)).drop (pre.length + p) = m.drop p ++ suf := by
  rw [← List.drop_drop, List.drop_left, List.drop_append_of_le_length h]

theorem getElem?_frame (h : m[p]? = some c) : (pre ++ (m ++ suf))[pre.length + p]? = some c := by
  have hlt : p < m.length := (List.getElem?_eq_some_iff.mp h).1
  rw [List.getElem?_append_right (Nat.le_add_right ..), Nat.add_sub_cancel_left,
    List.getElem?_append_left hlt, h]

theorem write_frame (h : write m i c = some m') :
    write (pre ++ (m ++ suf)) (pre.length + i) c = some (pre ++ (m' ++ suf)) := by
  unfold write at h ⊢
  have hlt : i < m.length := by
    by_contra hge
    rw [if_neg hge] at h
    exact absurd h (by simp)
  rw [if_pos hlt] at h
  have hlt' : pre.length + i < (pre ++ (m ++ suf)).length := by
    rw [List.length_append, List.length_append]
    omega
  rw [if_pos hlt', ← Option.some.inj h, List.set_append_right _ _ (Nat.le_add_right ..),
    Nat.add_sub_cancel_left, List.set_append_left _ _ hlt]

theorem findIdx?_frame {f : UInt8 → Bool} (h : (m.drop p).findIdx? f = some k) :
    ((pre ++ (m ++ suf)).drop (pre.length + p)).findIdx? f = some k := by
  have hp : p ≤ m.length := by
    by_contra hp
    rw [List.drop_eq_nil_of_le (by omega)] at h
    exact absurd h (by simp)
  rw [drop_frame hp, List.findIdx?_append, h]
  rfl

theorem str_frame (h : str m p = some s) : str (pre ++ (m ++ suf)) (pre.length + p) = some s := by
  unfold str at h ⊢
  obtain ⟨k, hk, hs⟩ := Option.map_eq_some_iff.mp h
  have hlt : k < (m.drop p).length := (List.findIdx?_eq_some_iff_findIdx_eq.mp hk).1
  have hp : p ≤ m.length := by
    rw [List.length_drop] at hlt
    omega
  rw [findIdx?_frame hk, Option.map_some, drop_frame hp, List.take_append_of_le_length hlt.le, hs]

theorem strpbrk_frame {r : Option ℕ} (h : strpbrk m p accept = some r) :
    strpbrk (pre ++ (m ++ suf)) (pre.length + p) accept = some (r.map (pre.length + ·)) := by
  unfold strpbrk at h ⊢
  obtain ⟨k, hk, h⟩ := Option.bind_eq_some_iff.mp h
  obtain ⟨c, hc, h⟩ := Option.bind_eq_some_iff.mp h
  have hc' : (pre ++ (m ++ suf))[pre.length + (p + k)]? = some c := getElem?_frame hc
  rw [← Nat.add_assoc] at hc'
  rw [findIdx?_frame hk, ← Option.some.inj h, Option.bind_eq_bind, Option.bind_some, hc']
  simp only [Option.bind_eq_bind, Option.bind_some]
  by_cases hc0 : c = 0
  · rw [if_pos hc0, if_pos hc0]
    rfl
  · rw [if_neg hc0, if_neg hc0, Nat.add_assoc]
    rfl

theorem strspn_frame (h : strspn m p accept = some k) :
    strspn (pre ++ (m ++ suf)) (pre.length + p) accept = some k :=
  findIdx?_frame h

theorem eqNoCase_append {b : Bool} (h : eqNoCase m lit = some b) : eqNoCase (m ++ suf) lit = some b := by
  induction m generalizing lit with
  | nil => exact absurd h (by simp [eqNoCase])
  | cons c m ih =>
    cases lit with
    | nil => exact h
    | cons l ls =>
      rw [List.cons_append, eqNoCase]
      rw [eqNoCase] at h
      split at h
      next hc => rw [if_pos hc, ih h]
      next hc => rw [if_neg hc, h]

theorem startsNoCase_append {b : Bool} (h : startsNoCase m lit = some b) :
    startsNoCase (m ++ suf) lit = some b := by
  induction m generalizing lit with
  | nil =>
    cases lit with
    | nil => simpa [startsNoCase] using h
    | cons l ls => exact absurd h (by simp [startsNoCase])
  | cons c m ih =>
    cases lit with
    | nil => simpa [startsNoCase] using h
    | cons l ls =>
      rw [List.cons_append, startsNoCase]
      rw [startsNoCase] at h
      split at h
      next hc => rw [if_pos hc, ih h]
      next hc => rw [if_neg hc, h]

theorem strcasecmp_frame {b : Bool} (h : strcasecmp m p lit = some b) :
    strcasecmp (pre ++ (m ++ suf)) (pre.length + p) lit = some b := by
  unfold strcasecmp at h ⊢
  have hp : p ≤ m.length := by
    by_contra hp
    rw [List.drop_eq_nil_of_le (by omega)] at h
    exact absurd h (by simp [eqNoCase])
  rw [drop_frame hp, eqNoCase_append h]

theorem strncasecmp_frame {b : Bool} (h : strncasecmp m p lit = some b) :
    strncasecmp (pre ++ (m ++ suf)) (pre.length + p) lit = some b := by
  unfold strncasecmp at h ⊢
  by_cases hp : p ≤ m.length
  · rw [drop_frame hp, startsNoCase_append h]
  · rw [List.drop_eq_nil_of_le (by omega)] at h
    cases lit with
    | nil => simpa [startsNoCase] using h
    | cons l ls => exact absurd h (by simp [startsNoCase])

end frame

end LinuxServer.CString
