import LinuxServer.CString
import Mathlib.Data.Nat.Digits.Lemmas

/-!
# Decimal numbers and `snprintf`

Numbers as `%d` prints them, and text printed into a byte memory, one piece behind the other.
-/

namespace LinuxServer.CString

def decimal (n : ℕ) : List UInt8 :=
  if n = 0 then [48] else (Nat.digits 10 n).reverse.map fun d => UInt8.ofNat (48 + d)

/-- What a conversion `%d` takes from a number of 64 bits: the low 32 bits, as a signed number. -/
def lowInt (x : ℤ) : ℤ := Int.bmod x 4294967296

/-- The digits that `%d` prints of an `int`. -/
def printInt (x : ℤ) : List UInt8 := if x < 0 then 45 :: decimal x.natAbs else decimal x.natAbs

/-- The value of an unsigned number. -/
def readDecimal (s : List UInt8) : Option ℕ :=
  if s ≠ [] ∧ s.all fun c => 48 ≤ c ∧ c ≤ 57 then some (s.foldl (fun n c => 10 * n + (c.toNat - 48)) 0)
  else none

/-- `snprintf(m + p, n, ...)` of a text: at most `n - 1` bytes of it are stored, and a NUL, and its
length is returned. -/
def snprintf (m : List UInt8) (p n : ℕ) (text : List UInt8) : Option (List UInt8 × ℕ) :=
  if n = 0 then some (m, text.length)
  else if p + (text.take (n - 1)).length < m.length then
    some (m.take p ++ text.take (n - 1) ++ 0 :: m.drop (p + (text.take (n - 1)).length + 1), text.length)
  else none

section Decimal

variable {d n k : ℕ}

theorem digit_toNat (hd : d < 10) : (UInt8.ofNat (48 + d)).toNat = 48 + d := by
  rw [UInt8.toNat_ofNat']
  omega

theorem digit_le (hd : d < 10) : 48 ≤ UInt8.ofNat (48 + d) ∧ UInt8.ofNat (48 + d) ≤ 57 := by
  rw [UInt8.le_iff_toNat_le, UInt8.le_iff_toNat_le, digit_toNat hd]
  constructor
  · show 48 ≤ 48 + d
    omega
  · show 48 + d ≤ 57
    omega

theorem decimal_digits {c : UInt8} (hc : c ∈ decimal n) : 48 ≤ c ∧ c ≤ 57 := by
  unfold decimal at hc
  split at hc
  · simp at hc
    subst hc
    decide
  · obtain ⟨d, hd, rfl⟩ := List.mem_map.mp hc
    exact digit_le (Nat.digits_lt_base (by decide) (List.mem_reverse.mp hd))

theorem decimal_length (hk : 0 < k) (hn : n < 10 ^ k) : (decimal n).length ≤ k := by
  unfold decimal
  split
  · exact hk
  · rw [List.length_map, List.length_reverse]
    exact (Nat.digits_length_le_iff (by decide) n).mpr hn

theorem lt_decimal_length (hn : 10 ^ k ≤ n) : k < (decimal n).length := by
  have hpos : n ≠ 0 := by
    rintro rfl
    have := Nat.pow_pos (n := k) (show 0 < 10 by decide)
    omega
  rw [decimal, if_neg hpos, List.length_map, List.length_reverse]
  exact (Nat.lt_digits_length_iff (by decide) n).mpr hn

theorem foldl_digits (ds : List ℕ) (h : ∀ d ∈ ds, d < 10) :
    (ds.reverse.map fun d => UInt8.ofNat (48 + d)).foldl (fun n c => 10 * n + (c.toNat - 48)) 0 =
      Nat.ofDigits 10 ds := by
  rw [List.foldl_map, List.foldl_reverse]
  induction ds with
  | nil => rfl
  | cons d ds ih =>
    have hd := h d List.mem_cons_self
    rw [List.foldr_cons, ih fun x hx => h x (List.mem_cons_of_mem _ hx), digit_toNat hd, Nat.ofDigits_cons]
    omega

/-- A number is read back from its digits. -/
theorem readDecimal_decimal (n : ℕ) : readDecimal (decimal n) = some n := by
  have hdigits : ∀ c ∈ decimal n, 48 ≤ c ∧ c ≤ 57 := fun c => decimal_digits
  unfold readDecimal
  rw [if_pos]
  · unfold decimal
    split
    · next h => simp [h]
    · rw [foldl_digits _ fun d hd => Nat.digits_lt_base (by decide) hd, Nat.ofDigits_digits]
  · refine ⟨?_, List.all_eq_true.mpr fun c hc => decide_eq_true (hdigits c hc)⟩
    unfold decimal
    split
    · exact List.cons_ne_nil _ _
    · next h => simpa [Nat.digits_eq_nil_iff_eq_zero] using h

theorem readDecimal_printInt (x : ℤ) : readDecimal (printInt x) = if x < 0 then none else some x.natAbs := by
  unfold printInt
  split
  · unfold readDecimal
    rw [if_neg]
    intro h
    have h45 := List.all_eq_true.mp h.2 45 List.mem_cons_self
    exact absurd h45 (by decide)
  · exact readDecimal_decimal _

theorem printInt_bytes {x : ℤ} {c : UInt8} (hc : c ∈ printInt x) : 45 ≤ c ∧ c ≤ 57 := by
  have hdigit : ∀ c ∈ decimal x.natAbs, 45 ≤ c ∧ c ≤ 57 := fun c hc => by
    have h := decimal_digits hc
    exact ⟨UInt8.le_trans (by decide) h.1, h.2⟩
  unfold printInt at hc
  split at hc
  · rcases List.mem_cons.mp hc with rfl | hc
    · decide
    · exact hdigit c hc
  · exact hdigit c hc

theorem printInt_length {x : ℤ} (hk : 0 < k) (hx : x.natAbs < 10 ^ k) : (printInt x).length ≤ k + 1 := by
  have h := decimal_length hk hx
  unfold printInt
  split
  · rw [List.length_cons]
    omega
  · omega

theorem lowInt_bounds (x : ℤ) : -2147483648 ≤ lowInt x ∧ lowInt x < 2147483648 := by
  have h := Int.bmod_eq_emod x 4294967296
  unfold lowInt
  split at h <;> omega

theorem lowInt_eq {x : ℤ} (h1 : -2147483648 ≤ x) (h2 : x < 2147483648) : lowInt x = x := by
  have h := Int.bmod_eq_emod x 4294967296
  unfold lowInt
  split at h <;> omega

end Decimal

/-- A text that fits is put in front of the NULs that are left. -/
theorem snprintf_append {t u : List UInt8} {n N : ℕ} (hu : u.length < n) (hN : t.length + u.length < N) :
    snprintf (t ++ List.replicate (N - t.length) 0) t.length n u =
      some (t ++ u ++ List.replicate (N - (t ++ u).length) 0, u.length) := by
  have htake : u.take (n - 1) = u := List.take_of_length_le (by omega)
  have hlen : (t ++ List.replicate (N - t.length) (0 : UInt8)).length = N := by
    rw [List.length_append, List.length_replicate]
    omega
  have hrest : (t ++ List.replicate (N - t.length) (0 : UInt8)).drop (t.length + u.length + 1) =
      List.replicate (N - (t.length + u.length + 1)) 0 := by
    rw [List.drop_append, List.drop_eq_nil_of_le (by omega), List.nil_append, List.drop_replicate]
    congr 1
    omega
  have hN' : N - (t.length + u.length) = N - (t.length + u.length + 1) + 1 := by omega
  unfold snprintf
  rw [if_neg (by omega), htake, hlen, if_pos hN, hrest, List.take_left, List.length_append, hN',
    List.replicate_succ]

end LinuxServer.CString
