import Mathlib.Data.Int.Order.Basic
import Mathlib.Data.List.Nodup
import Mathlib.Data.List.Perm.Basic
import Mathlib.Data.List.Range
import Mathlib.Logic.Function.Basic

/-!
# Segments of an array

An array is a function on the integers.  A loop over it that takes an entry out by
moving the last one into its place still meets every other entry once.
-/

namespace LinuxServer

variable {α β : Type*} {f g : ℤ → α} {i : ℤ} {m : ℕ}

/-- The `m` entries of `f` from `i` on. -/
def segment (f : ℤ → α) (i : ℤ) (m : ℕ) : List α := (List.range m).map fun k : ℕ => f (i + k)

@[simp] theorem segment_zero : segment f i 0 = [] := rfl

theorem segment_succ (f : ℤ → α) (i : ℤ) (m : ℕ) : segment f i (m + 1) = f i :: segment f (i + 1) m := by
  have hk : ∀ k : ℕ, i + ((k : ℤ) + 1) = i + 1 + k := fun k => by omega
  simp [segment, List.range_succ_eq_map, Function.comp_def, hk]

theorem segment_snoc (f : ℤ → α) (i : ℤ) (m : ℕ) : segment f i (m + 1) = segment f i m ++ [f (i + m)] := by
  simp [segment, List.range_succ]

theorem mem_segment {x : α} : x ∈ segment f i m ↔ ∃ j, i ≤ j ∧ j < i + m ∧ f j = x := by
  simp only [segment, List.mem_map, List.mem_range]
  constructor
  · rintro ⟨k, hk, rfl⟩
    exact ⟨i + k, by omega, by omega, rfl⟩
  · rintro ⟨j, h1, h2, rfl⟩
    exact ⟨(j - i).toNat, by omega, by rw [show i + ((j - i).toNat : ℤ) = j by omega]⟩

theorem segment_congr (h : ∀ j, i ≤ j → j < i + m → f j = g j) : segment f i m = segment g i m := by
  refine List.map_congr_left fun k hk => ?_
  have := List.mem_range.mp hk
  exact h _ (by omega) (by omega)

theorem map_segment (g : α → β) (f : ℤ → α) (i : ℤ) (m : ℕ) :
    (segment f i m).map g = segment (fun j => g (f j)) i m := by
  simp [segment, Function.comp_def]

theorem segment_nodup
    (h : ∀ j k, i ≤ j → j < i + m → i ≤ k → k < i + m → f j = f k → j = k) : (segment f i m).Nodup := by
  refine List.Nodup.map_on (fun j hj k hk hjk => ?_) List.nodup_range
  have hj := List.mem_range.mp hj
  have hk := List.mem_range.mp hk
  have := h _ _ (by omega) (by omega) (by omega) (by omega) hjk
  omega

/-- The entry `i` is taken out: the last one moves into its place. -/
theorem segment_swapRemove (f : ℤ → α) (i : ℤ) (m : ℕ) :
    (segment (Function.update f i (f (i + m))) i m).Perm (segment f (i + 1) m) := by
  cases m with
  | zero => exact .refl _
  | succ m =>
    have hrest : segment (Function.update f i (f (i + (m + 1 : ℕ)))) (i + 1) m = segment f (i + 1) m :=
      segment_congr fun j h1 _ => Function.update_of_ne (by omega) _ _
    have hlast : i + ((m + 1 : ℕ) : ℤ) = i + 1 + m := by push_cast; omega
    rw [segment_succ, Function.update_self, hrest, segment_snoc, hlast]
    exact (List.perm_append_singleton _ _).symm

end LinuxServer
