import Mathlib.Data.List.Sort
import Mathlib.Tactic.Order

/-!
# Insertion behind equals

Inserting the entries of a list one by one, each behind those with the same key,
sorts the list stably.
-/

namespace LinuxServer

variable {α β : Type*} [LinearOrder β] {k : α → β} {xs : List α}

/-- `a` behind every entry whose key is not greater, in front of the others. -/
def placed (k : α → β) (a : α) (xs : List α) : List α :=
  xs.filter (k · ≤ k a) ++ a :: xs.filter (k a < k ·)

/-- Insertion in front of the first greater key. -/
abbrev insertBehind (k : α → β) (a : α) (xs : List α) : List α :=
  xs.orderedInsert (fun x y => k x < k y) a

/-- Insertion in front of the first key that is not smaller. -/
abbrev insertBefore (k : α → β) (a : α) (xs : List α) : List α :=
  xs.orderedInsert (fun x y => k x ≤ k y) a

theorem insertBehind_eq_placed (a : α) (hs : xs.Pairwise fun x y => k x ≤ k y) :
    insertBehind k a xs = placed k a xs := by
  induction xs with
  | nil => rfl
  | cons b xs ih =>
    obtain ⟨hb, hxs⟩ := List.pairwise_cons.mp hs
    rw [insertBehind, List.orderedInsert_cons]
    split
    next hlt =>
      have hall : ∀ c ∈ b :: xs, k a < k c := by
        intro c hc
        rcases List.mem_cons.mp hc with rfl | hc
        · exact hlt
        · exact hlt.trans_le (hb c hc)
      have h1 : (b :: xs).filter (k · ≤ k a) = [] := by
        apply List.filter_eq_nil_iff.mpr
        intro c hc
        simpa using hall c hc
      have h2 : (b :: xs).filter (k a < k ·) = b :: xs := by
        apply List.filter_eq_self.mpr
        intro c hc
        simpa using hall c hc
      rw [placed, h1, h2, List.nil_append]
    next hge =>
      have hle : k b ≤ k a := not_lt.mp hge
      have ih := ih hxs
      rw [insertBehind] at ih
      rw [ih, placed, placed, List.filter_cons_of_pos (by simpa using hle),
        List.filter_cons_of_neg (by simpa using hle), List.cons_append]

/-- The two insertions do not disturb each other, whatever the keys. -/
theorem insertBehind_insertBefore (a x : α) (xs : List α) :
    insertBehind k x (insertBefore k a xs) = insertBefore k a (insertBehind k x xs) := by
  induction xs with
  | nil =>
    simp only [insertBehind, insertBefore, List.orderedInsert_nil, List.orderedInsert_cons]
    split_ifs <;> first | rfl | order
  | cons b xs ih =>
    simp only [insertBehind, insertBefore] at ih ⊢
    simp only [List.orderedInsert_cons]
    split_ifs <;> simp only [List.orderedInsert_cons] <;> split_ifs <;>
      first | rfl | rw [ih] | order

theorem foldl_insertBehind (a : α) (xs ts : List α) :
    ts.foldl (fun s x => insertBehind k x s) (insertBefore k a xs) =
      insertBefore k a (ts.foldl (fun s x => insertBehind k x s) xs) := by
  induction ts generalizing xs with
  | nil => rfl
  | cons x ts ih => rw [List.foldl_cons, List.foldl_cons, insertBehind_insertBefore, ih]

/-- In front of its equals is where the stable sort has the first entry. -/
theorem mergeSort_cons_eq (k : α → β) (a : α) (ts : List α) :
    (a :: ts).mergeSort (fun x y => decide (k x ≤ k y)) =
      insertBefore k a (ts.mergeSort fun x y => decide (k x ≤ k y)) := by
  have htrans : ∀ x y z : α, decide (k x ≤ k y) → decide (k y ≤ k z) → decide (k x ≤ k z) := by
    intro x y z
    simpa using le_trans
  have htotal : ∀ x y : α, (decide (k x ≤ k y) || decide (k y ≤ k x)) = true := by
    intro x y
    simpa using le_total (k x) (k y)
  obtain ⟨l₁, l₂, h1, h2, h3⟩ := List.mergeSort_cons htrans htotal a ts
  have hsort := List.pairwise_mergeSort htrans htotal (a :: ts)
  rw [h1] at hsort ⊢
  rw [h2, insertBefore]
  have hback : l₂.orderedInsert (fun x y => k x ≤ k y) a = a :: l₂ := by
    cases l₂ with
    | nil => rfl
    | cons b l₂ =>
      have hab := (List.pairwise_cons.mp (List.pairwise_append.mp hsort).2.1).1 b (by simp)
      rw [List.orderedInsert_cons, if_pos (by simpa using hab)]
  clear hsort h1 h2
  induction l₁ with
  | nil => exact hback.symm
  | cons b l₁ ih =>
    have hba : ¬ k a ≤ k b := by simpa using h3 b (by simp)
    rw [List.cons_append, List.cons_append, List.orderedInsert_cons, if_neg hba,
      ih fun c hc => h3 c (by simp [hc])]

/-- Insertion sort from the front, behind equals, is the stable sort. -/
theorem foldl_insertBehind_eq_mergeSort (k : α → β) (ts : List α) :
    ts.foldl (fun s x => insertBehind k x s) [] = ts.mergeSort fun x y => decide (k x ≤ k y) := by
  induction ts with
  | nil => simp
  | cons a ts ih =>
    have h := foldl_insertBehind (k := k) a [] ts
    rw [mergeSort_cons_eq, ← ih, ← h]
    rfl

end LinuxServer
