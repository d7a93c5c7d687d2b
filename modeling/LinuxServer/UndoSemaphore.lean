import Mathlib.Algebra.BigOperators.Group.Finset.Piecewise
import Mathlib.Algebra.Order.BigOperators.Group.Finset
import Mathlib.Data.Fintype.Basic

/-!
# Semaphores with undo

A semaphore whose operations are recorded for each process, with the opposite sign, and
undone when the process exits.  The value and the records always add up to the same.
-/

namespace LinuxServer
open Finset

/-- The value of a semaphore, and for each process what its exit adds to it. -/
structure UndoSemaphore (π : Type*) where
  value : ℤ
  adj : π → ℤ

namespace UndoSemaphore

variable {π : Type*} {s s' : UndoSemaphore π} {p q : π} {n : ℤ}

/-- A new value clears what was recorded. -/
def setVal (n : ℤ) : UndoSemaphore π := ⟨n, fun _ => 0⟩

/-- The value once every process has exited. -/
def total [Fintype π] (s : UndoSemaphore π) : ℤ := s.value + ∑ p, s.adj p

theorem total_setVal [Fintype π] (n : ℤ) : (setVal n : UndoSemaphore π).total = n := by
  simp [total, setVal]

variable [DecidableEq π]

/-- An operation by `n`, which is not 0; `none` makes the process wait. -/
def op (p : π) (n : ℤ) (s : UndoSemaphore π) : Option (UndoSemaphore π) :=
  if 0 ≤ s.value + n then some ⟨s.value + n, Function.update s.adj p (s.adj p - n)⟩ else none

/-- The exit of a process.  The value does not become negative. -/
def exit (p : π) (s : UndoSemaphore π) : UndoSemaphore π :=
  ⟨max 0 (s.value + s.adj p), Function.update s.adj p 0⟩

@[simp] theorem exit_adj_self : (s.exit p).adj p = 0 := Function.update_self ..

theorem exit_adj_of_ne (h : q ≠ p) : (s.exit p).adj q = s.adj q := Function.update_of_ne h ..

theorem op_eq (h : s.op p n = some s') :
    0 ≤ s'.value ∧ s'.value = s.value + n ∧ s'.adj = Function.update s.adj p (s.adj p - n) := by
  unfold op at h
  split at h
  next hn =>
    obtain rfl := Option.some.inj h
    exact ⟨hn, rfl, rfl⟩
  next => cases h

section total

variable [Fintype π]

theorem sum_update (f : π → ℤ) (p : π) (n : ℤ) : ∑ q, Function.update f p n q = ∑ q, f q - f p + n := by
  have h := Finset.sum_update_of_mem (mem_univ p) f n
  have hp := Finset.add_sum_erase univ f (mem_univ p)
  rw [h, sdiff_singleton_eq_erase, ← hp]
  omega

theorem total_op (h : s.op p n = some s') : s'.total = s.total := by
  obtain ⟨-, hv, ha⟩ := op_eq h
  unfold total
  rw [hv, ha, sum_update]
  omega

theorem total_exit (h : 0 ≤ s.value + s.adj p) : (s.exit p).total = s.total := by
  simp only [total, exit, sum_update, max_eq_right h]
  omega

/-- Of a semaphore with one unit only one process has something to give back. -/
theorem holder_unique (htotal : s.total = 1) (hv : 0 ≤ s.value) (ha : ∀ r, 0 ≤ s.adj r)
    (hp : 0 < s.adj p) (hq : 0 < s.adj q) : p = q := by
  by_contra hne
  have htwo : s.adj p + s.adj q ≤ ∑ r, s.adj r := by
    rw [← sum_pair hne]
    exact sum_le_sum_of_subset_of_nonneg (subset_univ _) fun r _ _ => ha r
  unfold total at htotal
  omega

/-- If none has, a unit can be taken. -/
theorem op_of_free (htotal : s.total = 1) (ha : ∀ r, s.adj r ≤ 0) (p : π) : ∃ s', s.op p (-1) = some s' := by
  have hsum : ∑ r, s.adj r ≤ 0 := sum_nonpos fun r _ => ha r
  unfold total at htotal
  exact ⟨_, if_pos (by omega)⟩

end total

end UndoSemaphore

end LinuxServer
