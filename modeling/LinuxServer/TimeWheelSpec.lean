import LinuxServer.TimeWheel
import Mathlib.Data.List.Perm.Subperm

/-!
# What the operations of the time wheel do

Every slot holds a list of timers with correct links in both directions.  `add_timer`
puts a timer in front of its list and `del_timer` takes one out.  `tick` works on the
list of the current slot only.  If the first timer there is due it runs and the list is
dropped; otherwise the timers that are due run and the others come one round closer.
-/

namespace LinuxServer.Wheel
open Linkage

/-- The links of timers, where `prev` is the inverse of `next`. -/
def links : Linkage TwTimer where
  next := TwTimer.next
  prev := TwTimer.prev
  back x pr := x = pr

@[simp] theorem links_next (t : TwTimer) : links.next t = t.next := rfl
@[simp] theorem links_prev (t : TwTimer) : links.prev t = t.prev := rfl
@[simp] theorem links_back (x y : Option ℕ) : links.back x y ↔ x = y := Iff.rfl

/-- What a timer counts, as opposed to its links. -/
def count (t : TwTimer) : ℤ × ℤ := (t.rotation, t.timeSlot)

theorem slotCount_pos : 0 < slotCount := by decide

theorem isSlot_mod (i : ℤ) : IsSlot (i % slotCount) :=
  ⟨Int.emod_nonneg _ (by decide), Int.emod_lt_of_pos _ slotCount_pos⟩

namespace TimeWheel

variable {w w' : TimeWheel} {a : ℕ} {i : ℤ} {t : TwTimer} {xs : List ℕ}

theorem slot_of_isSlot (hi : IsSlot i) : w.slot i = some (w.slots i) := if_pos hi

theorem setSlot_of_isSlot (hi : IsSlot i) (p : Option ℕ) :
    w.setSlot i p = some { w with slots := Function.update w.slots i p } := if_pos hi

theorem setNext_of_some (ht : w.heap a = some t) (q : Option ℕ) : w.setNext (some a) q =
    some { w with heap := Function.update w.heap a (some { t with next := q }) } := by
  simp [setNext, write, ht]

theorem setPrev_of_some (ht : w.heap a = some t) (q : Option ℕ) : w.setPrev (some a) q =
    some { w with heap := Function.update w.heap a (some { t with prev := q }) } := by
  simp [setPrev, write, ht]

theorem free_of_some (ht : w.heap a = some t) :
    w.free a = some { w with heap := Function.update w.heap a none } := by
  simp [free, release, ht]

/-- The timers of slot `i`, from its head. -/
def timers (w : TimeWheel) (i : ℤ) : List ℕ := links.chain w.heap w.cells (w.slots i)

/-- Slot `i` holds the timers `xs`, in this order. -/
structure Holds (w : TimeWheel) (i : ℤ) (xs : List ℕ) : Prop where
  seg : links.Seg w.heap none (w.slots i) xs none
  nodup : xs.Nodup
  bound : ∀ a ∈ xs, a < w.cells

theorem Holds.length_le (h : Holds w i xs) : xs.length ≤ w.cells := by
  have hsub : xs ⊆ List.range w.cells := fun a ha => List.mem_range.mpr (h.bound a ha)
  simpa using (h.nodup.subperm hsub).length_le

theorem Holds.timers_eq (h : Holds w i xs) : w.timers i = xs := h.seg.chain_eq h.length_le

theorem Holds.head_eq (h : Holds w i xs) : w.slots i = firstPtr none xs := h.seg.first

/-- A list is left alone by what happens in other cells and slots. -/
theorem Holds.frame (h : Holds w i xs) (hslot : w'.slots i = w.slots i) (hcells : w.cells ≤ w'.cells)
    (hheap : ∀ a ∈ xs, w'.heap a = w.heap a) : Holds w' i xs := by
  refine ⟨?_, h.nodup, fun a ha => Nat.lt_of_lt_of_le (h.bound a ha) hcells⟩
  rw [hslot]
  exact h.seg.congr hheap

end TimeWheel

/-! ## `del_timer` -/

namespace TimeWheel

variable {w w' : TimeWheel} {a p : ℕ} {i j : ℤ} {t : TwTimer} {xs ys : List ℕ}

/-- Taking out a timer behind another one: only the timers of its list are written. -/
theorem unlink_spec (hs : links.Seg w.heap none (w.slots i) (xs ++ p :: a :: ys) none)
    (hnd : (xs ++ p :: a :: ys).Nodup) (hta : w.heap a = some t) :
    ∃ w', w.unlink t = some w' ∧ w'.heap a = some t ∧ w'.slots = w.slots ∧ w'.curSlot = w.curSlot ∧
      w'.cells = w.cells ∧
      links.Seg (Function.update w'.heap a none) none (w.slots i) (xs ++ p :: ys) none ∧
      (∀ x, x ∉ xs ++ p :: ys → w'.heap x = w.heap x) ∧
      ∀ x, (w'.heap x).map count = (w.heap x).map count := by
  obtain ⟨r, h1, hr, tp, htp, hbp, hpn, t1, ht1, hba, hrest⟩ := seg_append.mp hs
  obtain rfl : t = t1 := Option.some.inj (hta.symm.trans ht1)
  obtain ⟨-, hndp, hdis⟩ := List.nodup_append.mp hnd
  obtain ⟨hpm, hnda⟩ := List.nodup_cons.mp hndp
  obtain ⟨ham, hndy⟩ := List.nodup_cons.mp hnda
  have hpa : p ≠ a := by rintro rfl; simp at hpm
  have hprev : t.prev = some p := hba
  cases ys with
  | nil =>
    have hnext : t.next = none := hrest
    refine ⟨{ w with heap := Function.update w.heap p (some { tp with next := none }) }, ?_, ?_, rfl,
      rfl, rfl, ?_, fun x hx => ?_, fun x => ?_⟩
    · simp [unlink, hprev, hnext, setNext_of_some htp]
    · simpa [Function.update_of_ne hpa.symm] using hta
    · refine hs.removeAfter { tp with next := none } hnd ?_ htp ?_ rfl rfl ?_
      · intro c hca hcp _
        simp [Function.update_of_ne hca, Function.update_of_ne hcp]
      · simp [Function.update_of_ne hpa]
      · simp
    · have hxp : x ≠ p := by rintro rfl; simp at hx
      simp [Function.update_of_ne hxp]
    · rcases eq_or_ne x p with rfl | hxp
      · simp [htp, count]
      · simp [Function.update_of_ne hxp]
  | cons c zs =>
    obtain ⟨hcn, tc, htc, -, -⟩ := hrest
    simp only [links_next] at hcn
    have hcp : c ≠ p := by rintro rfl; simp at hpm
    have hca : c ≠ a := by rintro rfl; simp at ham
    refine ⟨{ w with heap := Function.update (Function.update w.heap p
        (some { tp with next := some c })) c (some { tc with prev := some p }) }, ?_, ?_, rfl, rfl, rfl,
      ?_, fun x hx => ?_, fun x => ?_⟩
    · have htc' : Function.update w.heap p (some { tp with next := some c }) c = some tc := by
        rw [Function.update_of_ne hcp, htc]
      simp [unlink, hprev, hcn, setNext_of_some htp, setPrev, write, htc']
    · simpa [Function.update_of_ne hca.symm, Function.update_of_ne hpa.symm] using hta
    · refine hs.removeAfter { tp with next := some c } hnd ?_ htp ?_ rfl rfl ?_
      · intro x hxa hxp hxc
        have hxc : x ≠ c := by rintro rfl; simp at hxc
        simp [Function.update_of_ne hxa, Function.update_of_ne hxp, Function.update_of_ne hxc]
      · simp [Function.update_of_ne hpa, Function.update_of_ne hcp.symm]
      · intro x v hx hv
        obtain rfl : c = x := by simpa using hx
        obtain rfl : tc = v := Option.some.inj (htc.symm.trans hv)
        exact ⟨{ tc with prev := some p }, by simp [Function.update_of_ne hca], rfl, rfl⟩
    · have hxp : x ≠ p := by rintro rfl; simp at hx
      have hxc : x ≠ c := by rintro rfl; simp at hx
      simp [Function.update_of_ne hxp, Function.update_of_ne hxc]
    · rcases eq_or_ne x c with rfl | hxc
      · simp [htc, count]
      · rcases eq_or_ne x p with rfl | hxp
        · simp [Function.update_of_ne hxc, htp, count]
        · simp [Function.update_of_ne hxc, Function.update_of_ne hxp]

/-- The lists of `w'` differ from those of `w` in slot `i` and in the timers `xs` only. -/
structure Within (w w' : TimeWheel) (i : ℤ) (xs : List ℕ) : Prop where
  cells : w.cells ≤ w'.cells
  slots : ∀ j, j ≠ i → w'.slots j = w.slots j
  heap : ∀ x, x ∉ xs → w'.heap x = w.heap x

theorem Within.holds {l : List ℕ} (hw : Within w w' i xs) (h : Holds w j l) (hj : j ≠ i)
    (hl : ∀ x ∈ l, x ∉ xs) : Holds w' j l :=
  h.frame (hw.slots j hj) hw.cells fun x hx => hw.heap x (hl x hx)

/-- `del_timer` takes the first timer out of its slot. -/
theorem delTimer_head (hi : IsSlot i) (h : Holds w i (a :: xs)) (hta : w.heap a = some t)
    (hslot : t.timeSlot = i) :
    ∃ w', w.delTimer (some a) = some w' ∧ w'.curSlot = w.curSlot ∧ Within w w' i (a :: xs) ∧
      Holds w' i xs ∧ w'.heap a = none ∧
      ∀ x, x ≠ a → (w'.heap x).map count = (w.heap x).map count := by
  have hhead : w.slots i = some a := h.head_eq
  obtain ⟨ham, hnd⟩ := List.nodup_cons.mp h.nodup
  obtain ⟨-, t1, ht1, -, hrest⟩ := h.seg
  obtain rfl : t = t1 := Option.some.inj (hta.symm.trans ht1)
  simp only [links_next] at hrest
  cases xs with
  | nil =>
    have hnext : t.next = none := hrest
    refine ⟨{ w with slots := Function.update w.slots i none, heap := Function.update w.heap a none },
      ?_, rfl, ⟨Nat.le_refl _, fun j hj => Function.update_of_ne hj _ _, fun x hx => ?_⟩,
      ⟨by simp, List.nodup_nil, by simp⟩, by simp, fun x hx => ?_⟩
    · simp [delTimer, hta, hslot, slot_of_isSlot hi, setSlot_of_isSlot hi, hhead, hnext, free, release]
    · exact Function.update_of_ne (by simpa using hx) _ _
    · simp [Function.update_of_ne hx]
  | cons b ys =>
    obtain ⟨hnext, tb, htb, -, hrest⟩ := hrest
    have hba : b ≠ a := by rintro rfl; simp at ham
    refine ⟨{ w with
        slots := Function.update w.slots i (some b)
        heap := Function.update (Function.update w.heap b (some { tb with prev := none })) a none },
      ?_, rfl, ⟨Nat.le_refl _, fun j hj => Function.update_of_ne hj _ _, fun x hx => ?_⟩,
      ⟨?_, hnd, fun x hx => h.bound x (by simp [hx])⟩, by simp, fun x hx => ?_⟩
    · simp [delTimer, hta, hslot, slot_of_isSlot hi, setSlot_of_isSlot hi, hhead, hnext, free, release,
        setPrev, write, htb, Function.update_of_ne hba.symm]
    · have hxa : x ≠ a := by rintro rfl; simp at hx
      have hxb : x ≠ b := by rintro rfl; simp at hx
      simp [Function.update_of_ne hxa, Function.update_of_ne hxb]
    · refine ⟨by simp, { tb with prev := none }, by simp [Function.update_of_ne hba], rfl, ?_⟩
      apply hrest.congr
      intro x hx
      have hxa : x ≠ a := by rintro rfl; simp [hx] at ham
      have hxb : x ≠ b := by rintro rfl; exact (List.nodup_cons.mp hnd).1 hx
      simp [Function.update_of_ne hxa, Function.update_of_ne hxb]
    · rcases eq_or_ne x b with rfl | hxb
      · simp [Function.update_of_ne hx, htb, count]
      · simp [Function.update_of_ne hx, Function.update_of_ne hxb]

/-- A timer behind another one is not the first, so `del_timer` unlinks it. -/
theorem delTimer_behind (hi : IsSlot i) (h : Holds w i (xs ++ p :: a :: ys)) (hta : w.heap a = some t)
    (hslot : t.timeSlot = i) :
    ∃ w', w.delTimer (some a) = some w' ∧ w'.curSlot = w.curSlot ∧ Within w w' i (xs ++ p :: a :: ys) ∧
      Holds w' i (xs ++ p :: ys) ∧ w'.heap a = none ∧
      ∀ x, x ≠ a → (w'.heap x).map count = (w.heap x).map count := by
  have hsub : (xs ++ p :: ys).Sublist (xs ++ p :: a :: ys) := by simp
  have hhead : w.slots i ≠ some a := by
    rw [h.head_eq]
    have hnd := h.nodup
    cases xs with
    | nil => rintro ⟨⟩; simp at hnd
    | cons x xs => rintro ⟨⟩; simp at hnd
  obtain ⟨w1, h1, h2, h3, h4, h5, h6, h7, h8⟩ := unlink_spec h.seg h.nodup hta
  refine ⟨{ w1 with heap := Function.update w1.heap a none }, ?_, h4,
    ⟨Nat.le_of_eq h5.symm, fun j _ => by rw [h3], fun x hx => ?_⟩,
    ⟨?_, h.nodup.sublist hsub, fun x hx => ?_⟩, by simp, fun x hx => ?_⟩
  · simp [delTimer, hta, hslot, slot_of_isSlot hi, hhead, h1, free, release, h2]
  · have hxa : x ≠ a := by rintro rfl; simp at hx
    simpa [Function.update_of_ne hxa] using h7 x fun hm => hx (hsub.subset hm)
  · show links.Seg _ none (w1.slots i) _ none
    rw [h3]
    exact h6
  · show x < w1.cells
    rw [h5]
    exact h.bound x (hsub.subset hx)
  · simpa [Function.update_of_ne hx] using h8 x

/-- `del_timer` takes its target out of the list. -/
theorem delTimer_spec (hi : IsSlot i) (h : Holds w i xs) (ha : a ∈ xs) (hta : w.heap a = some t)
    (hslot : t.timeSlot = i) :
    ∃ w', w.delTimer (some a) = some w' ∧ w'.curSlot = w.curSlot ∧ Within w w' i xs ∧
      Holds w' i (xs.erase a) ∧ w'.heap a = none ∧
      ∀ x, x ≠ a → (w'.heap x).map count = (w.heap x).map count := by
  obtain ⟨pre, post, rfl⟩ := List.append_of_mem ha
  rcases List.eq_nil_or_concat pre with rfl | ⟨qs, p, rfl⟩
  · rw [List.nil_append, List.erase_cons_head]
    exact delTimer_head hi h hta hslot
  · simp only [List.concat_eq_append, List.append_assoc, List.cons_append, List.nil_append] at h ⊢
    obtain ⟨-, hndp, hdis⟩ := List.nodup_append.mp h.nodup
    have haq : a ∉ qs := fun hq => hdis a hq a (by simp) rfl
    have hap : p ≠ a := by rintro rfl; exact (List.nodup_cons.mp hndp).1 (by simp)
    have herase : (qs ++ p :: a :: post).erase a = qs ++ p :: post := by
      rw [List.erase_append_right _ haq, List.erase_cons_tail (by simpa using hap), List.erase_cons_head]
    rw [herase]
    exact delTimer_behind hi h hta hslot

end TimeWheel

/-! ## `add_timer` -/

namespace TimeWheel

variable {w w' : TimeWheel} {a : ℕ} {i : ℤ} {xs : List ℕ}

/-- The number of ticks after which a timer is due. -/
def ticksOf (timeout : ℤ) : ℤ := max 1 (timeout / slotInterval)

/-- `add_timer` puts a new timer at the head of the slot that the hand reaches after the
given number of ticks, up to full rounds. -/
theorem addTimer_spec {timeout : ℤ} (htime : 0 ≤ timeout) (ha : a ∉ xs)
    (hi : i = (w.curSlot + ticksOf timeout % slotCount) % slotCount) (h : Holds w i xs) :
    ∃ w', w.addTimer a timeout = some (w', some a) ∧ w'.curSlot = w.curSlot ∧
      Within w w' i (a :: xs) ∧ Holds w' i (a :: xs) ∧
      (w'.heap a).map count = some (ticksOf timeout / slotCount, i) ∧
      ∀ x, x ≠ a → (w'.heap x).map count = (w.heap x).map count := by
  have hslot : IsSlot i := hi ▸ isSlot_mod _
  have hticks : (if timeout < slotInterval then 1 else timeout / slotInterval) = ticksOf timeout := by
    simp only [ticksOf, slotInterval, Int.ediv_one]
    split <;> omega
  have hnd : (a :: xs).Nodup := List.nodup_cons.mpr ⟨ha, h.nodup⟩
  have hbound : ∀ x ∈ a :: xs, x < max w.cells (a + 1) := by
    intro x hx
    rcases List.mem_cons.mp hx with rfl | hx
    · omega
    · have := h.bound x hx
      omega
  simp only [addTimer, if_neg (Int.not_lt.mpr htime), hticks, ← hi, Option.bind_eq_bind,
    slot_of_isSlot hslot, Option.bind_some, setSlot_of_isSlot hslot]
  cases xs with
  | nil =>
    have hhead : w.slots i = none := h.head_eq
    refine ⟨{ w.alloc a (ticksOf timeout / slotCount) i with
        slots := Function.update w.slots i (some a) }, ?_, rfl, ⟨Nat.le_max_left _ _,
      fun j hj => Function.update_of_ne hj _ _, fun x hx => ?_⟩, ⟨?_, hnd, hbound⟩, ?_, fun x hx => ?_⟩
    · simp [alloc, hhead]
    · exact Function.update_of_ne (by simpa using hx) _ _
    · simp [alloc]
    · simp [alloc, count]
    · simp [alloc, Function.update_of_ne hx]
  | cons b ys =>
    have hhead : w.slots i = some b := h.head_eq
    obtain ⟨-, tb, htb, -, hrest⟩ := h.seg
    have hba : b ≠ a := by rintro rfl; simp at ha
    refine ⟨{ w.alloc a (ticksOf timeout / slotCount) i with
        slots := Function.update w.slots i (some a)
        heap := Function.update (Function.update w.heap a
          (some ⟨ticksOf timeout / slotCount, i, some b, none⟩)) b (some { tb with prev := some a }) },
      ?_, rfl, ⟨Nat.le_max_left _ _, fun j hj => Function.update_of_ne hj _ _, fun x hx => ?_⟩,
      ⟨?_, hnd, hbound⟩, ?_, fun x hx => ?_⟩
    · simp [alloc, hhead, setNext, setPrev, write, Function.update_of_ne hba, htb]
    · have hxa : x ≠ a := by rintro rfl; simp at hx
      have hxb : x ≠ b := by rintro rfl; simp at hx
      simp [Function.update_of_ne hxa, Function.update_of_ne hxb]
    · refine ⟨by simp, ⟨ticksOf timeout / slotCount, i, some b, none⟩,
        by simp [Function.update_of_ne hba.symm], rfl, rfl, { tb with prev := some a }, by simp, rfl, ?_⟩
      apply hrest.congr
      intro x hx
      have hxa : x ≠ a := by rintro rfl; simp [hx] at ha
      have hxb : x ≠ b := by rintro rfl; exact (List.nodup_cons.mp h.nodup).1 hx
      simp [Function.update_of_ne hxa, Function.update_of_ne hxb]
    · simp [Function.update_of_ne hba.symm, count]
    · rcases eq_or_ne x b with rfl | hxb
      · simp [htb, count]
      · simp [Function.update_of_ne hx, Function.update_of_ne hxb]

end TimeWheel

/-! ## `tick` -/

/-- The timers of a slot with rotations `r` that a tick leaves in it.  Behind a timer that
runs as the head of the slot everything is lost. -/
def kept (r : ℕ → ℤ) : List ℕ → List ℕ
  | [] => []
  | a :: xs => if 0 < r a then a :: xs.filter (0 < r ·) else []

/-- The timers that it runs. -/
def due (r : ℕ → ℤ) : List ℕ → List ℕ
  | [] => []
  | a :: xs => if 0 < r a then xs.filter (r · ≤ 0) else [a]

theorem kept_sublist (r : ℕ → ℤ) (xs : List ℕ) : (kept r xs).Sublist xs := by
  cases xs with
  | nil => exact .slnil
  | cons a xs =>
    simp only [kept]
    split
    · exact List.filter_sublist.cons_cons a
    · exact List.nil_sublist _

theorem pos_of_mem_kept {r : ℕ → ℤ} {xs : List ℕ} {x : ℕ} (hx : x ∈ kept r xs) : 0 < r x := by
  cases xs with
  | nil => cases hx
  | cons a xs =>
    simp only [kept] at hx
    split at hx
    next ha =>
      rcases List.mem_cons.mp hx with rfl | hx
      · exact ha
      · simpa using (List.mem_filter.mp hx).2
    next => cases hx

theorem of_mem_due {r : ℕ → ℤ} {xs : List ℕ} {x : ℕ} (hx : x ∈ due r xs) : x ∈ xs ∧ r x ≤ 0 := by
  cases xs with
  | nil => cases hx
  | cons a xs =>
    simp only [due] at hx
    split at hx
    next ha =>
      obtain ⟨h1, h2⟩ := List.mem_filter.mp hx
      exact ⟨List.mem_cons_of_mem a h1, by simpa using h2⟩
    next ha =>
      obtain rfl := List.mem_singleton.mp hx
      exact ⟨List.mem_cons_self, Int.not_lt.mp ha⟩

namespace TimeWheel

variable {ω : Type} {cb : ℕ → ω → ω} {o : ω} {w w' : TimeWheel} {a p : ℕ} {i : ℤ} {t : TwTimer}
  {xs ys : List ℕ} {n : ℕ} {r : ℕ → ℤ}

/-- A list behind its first timer is the list the loop has still to walk. -/
theorem next_eq_firstPtr (xs : List ℕ) (hs : links.Seg w.heap none (w.slots i) (xs ++ a :: ys) none)
    (hta : w.heap a = some t) : t.next = firstPtr none ys := by
  obtain ⟨-, -, -, t1, ht1, -, hrest⟩ := seg_append.mp hs
  obtain rfl : t = t1 := Option.some.inj (hta.symm.trans ht1)
  exact hrest.first

/-- What the loop leaves of the timers `ys` behind the timers `pre`: those that are due are
freed, and the others come one round closer. -/
structure Walked (r : ℕ → ℤ) (w w' : TimeWheel) (pre ys : List ℕ) : Prop where
  slots : w'.slots = w.slots
  hand : w'.curSlot = w.curSlot
  cells : w'.cells = w.cells
  seg : links.Seg w'.heap none (w.slots w.curSlot) (pre ++ ys.filter (0 < r ·)) none
  heap : ∀ x, x ∉ pre ++ ys → w'.heap x = w.heap x
  counts : ∀ x, x ∉ ys → (w'.heap x).map count = (w.heap x).map count
  turned : ∀ x ∈ ys, 0 < r x →
    (w'.heap x).map count = (w.heap x).map fun t => (t.rotation - 1, t.timeSlot)
  freed : ∀ x ∈ ys, r x ≤ 0 → w'.heap x = none

/-- `a` stays in the slot, one round closer, and the loop goes on behind it. -/
theorem Walked.stays {pre : List ℕ} (hta : w.heap a = some t) (hpos : 0 < r a) (ham : a ∉ ys)
    (h : Walked r { w with heap := Function.update w.heap a (some { t with rotation := t.rotation - 1 }) } w'
      (pre ++ [a]) ys) : Walked r w w' pre (a :: ys) := by
  have hseg := h.seg
  rw [List.append_assoc] at hseg
  refine ⟨h.slots, h.hand, h.cells, ?_, fun x hx => ?_, fun x hx => ?_, fun x hx hxr => ?_, fun x hx hxr => ?_⟩
  · rw [List.filter_cons_of_pos (by simpa using hpos)]
    exact hseg
  · have hxa : x ≠ a := by rintro rfl; simp at hx
    simpa [Function.update_of_ne hxa] using h.heap x (by simpa using hx)
  · have hxa : x ≠ a := by rintro rfl; simp at hx
    simpa [Function.update_of_ne hxa] using h.counts x fun hm => hx (by simp [hm])
  · rcases List.mem_cons.mp hx with rfl | hmem
    · rw [h.counts x ham]
      simp [hta, count]
    · have hxa : x ≠ a := by rintro rfl; exact ham hmem
      simpa [Function.update_of_ne hxa] using h.turned x hmem hxr
  · rcases List.mem_cons.mp hx with rfl | hmem
    · omega
    · exact h.freed x hmem hxr

/-- `a` is taken out of the slot and freed, and the loop goes on behind it. -/
theorem Walked.runs {w₁ : TimeWheel} {pre : List ℕ} (hle : r a ≤ 0) (hnot : a ∉ pre ++ ys)
    (hslots : w₁.slots = w.slots) (hhand : w₁.curSlot = w.curSlot) (hcells : w₁.cells = w.cells)
    (hheap : ∀ x, x ∉ pre ++ ys → w₁.heap x = w.heap x)
    (hcounts : ∀ x, (w₁.heap x).map count = (w.heap x).map count)
    (h : Walked r { w₁ with heap := Function.update w₁.heap a none } w' pre ys) :
    Walked r w w' pre (a :: ys) := by
  have hsame : ∀ x, x ≠ a → (Function.update w₁.heap a none x).map count = (w.heap x).map count := by
    intro x hx
    rw [Function.update_of_ne hx]
    exact hcounts x
  refine ⟨h.slots.trans hslots, h.hand.trans hhand, h.cells.trans hcells, ?_, fun x hx => ?_, fun x hx => ?_,
    fun x hx hxr => ?_, fun x hx hxr => ?_⟩
  · rw [List.filter_cons_of_neg (by simpa using hle)]
    simpa [hslots, hhand] using h.seg
  · have hxa : x ≠ a := by rintro rfl; simp at hx
    have hx' : x ∉ pre ++ ys := fun hm => hx (by simp at hm ⊢; tauto)
    rw [← hheap x hx']
    simpa [Function.update_of_ne hxa] using h.heap x hx'
  · have hxa : x ≠ a := by rintro rfl; simp at hx
    rw [h.counts x fun hm => hx (by simp [hm])]
    exact hsame x hxa
  · rcases List.mem_cons.mp hx with rfl | hmem
    · omega
    · have hxa : x ≠ a := by rintro rfl; exact hnot (by simp [hmem])
      have hx1 := congrArg (Option.map fun c : ℤ × ℤ => (c.1 - 1, c.2)) (hsame x hxa)
      rw [h.turned x hmem hxr]
      simpa [Option.map_map, Function.comp_def, count] using hx1
  · rcases List.mem_cons.mp hx with rfl | hmem
    · rw [h.heap x hnot]
      exact Function.update_self _ _ _
    · exact h.freed x hmem hxr

theorem tickLoop_stays (cb : ℕ → ω → ω) (n : ℕ) (hta : w.heap a = some t) (hpos : 0 < t.rotation) :
    tickLoop cb (n + 1) w (some a) o = tickLoop cb n
      { w with heap := Function.update w.heap a (some { t with rotation := t.rotation - 1 }) } t.next o := by
  simp [tickLoop, write, hta, hpos]

theorem tickLoop_runs {w₁ : TimeWheel} (cb : ℕ → ω → ω) (n : ℕ) (hi : IsSlot w.curSlot)
    (hta : w.heap a = some t) (hle : ¬ 0 < t.rotation) (hhead : w.slots w.curSlot ≠ some a)
    (h1 : w.unlink t = some w₁) (h2 : w₁.heap a = some t) :
    tickLoop cb (n + 1) w (some a) o =
      tickLoop cb n { w₁ with heap := Function.update w₁.heap a none } t.next (cb a o) := by
  simp [tickLoop, hta, hle, slot_of_isSlot hi, hhead, h1, h2, free, release]

/-- The loop behind a timer `p` that stays: it runs and takes out the timers that are due,
and turns back the others by one round. -/
theorem tickLoop_behind (cb : ℕ → ω → ω) (hi : IsSlot w.curSlot) (hn : ys.length < n)
    (hs : links.Seg w.heap none (w.slots w.curSlot) (xs ++ p :: ys) none) (hnd : (xs ++ p :: ys).Nodup)
    (hr : ∀ x ∈ ys, ∃ t, w.heap x = some t ∧ t.rotation = r x) :
    ∃ w', tickLoop cb n w (firstPtr none ys) o =
        some (w', (ys.filter (r · ≤ 0)).foldl (fun o a => cb a o) o) ∧ Walked r w w' (xs ++ [p]) ys := by
  induction ys generalizing xs p w o n with
  | nil =>
    obtain ⟨n, rfl⟩ : ∃ m, n = m + 1 := ⟨n - 1, by simp at hn; omega⟩
    exact ⟨w, rfl, rfl, rfl, rfl, by simpa using hs, fun _ _ => rfl, fun _ _ => rfl, by simp, by simp⟩
  | cons a ys ih =>
    obtain ⟨n, rfl⟩ : ∃ m, n = m + 1 := ⟨n - 1, by simp at hn; omega⟩
    obtain ⟨t, hta, hra⟩ := hr a (by simp)
    have hn' : ys.length < n := by simp at hn; omega
    obtain ⟨-, hndp, hdis⟩ := List.nodup_append.mp hnd
    obtain ⟨hpm, hnda⟩ := List.nodup_cons.mp hndp
    have ham : a ∉ ys := (List.nodup_cons.mp hnda).1
    have hne : ∀ x ∈ ys, x ≠ a := fun x hx => by rintro rfl; exact ham hx
    have hnext : t.next = firstPtr none ys := next_eq_firstPtr (xs ++ [p]) (by simpa using hs) hta
    by_cases hpos : 0 < r a
    · -- `a` stays and is turned back
      have hs1 : links.Seg (Function.update w.heap a (some { t with rotation := t.rotation - 1 })) none
          (w.slots w.curSlot) ((xs ++ [p]) ++ a :: ys) none := by
        rw [List.append_assoc]
        exact hs.write hta rfl rfl
      obtain ⟨w', h1, h2⟩ := ih (o := o) (n := n)
        (w := { w with heap := Function.update w.heap a (some { t with rotation := t.rotation - 1 }) })
        hi hn' hs1 (by simpa using hnd) fun x hx => by
          simpa [Function.update_of_ne (hne x hx)] using hr x (by simp [hx])
      refine ⟨w', ?_, h2.stays hta hpos ham⟩
      rw [← hnext] at h1
      rw [firstPtr, tickLoop_stays cb n hta (hra ▸ hpos), h1, List.filter_cons_of_neg (by simpa using hpos)]
    · -- `a` runs and is taken out
      have hle : r a ≤ 0 := Int.not_lt.mp hpos
      have hhead : w.slots w.curSlot ≠ some a := by
        rw [hs.first]
        cases xs with
        | nil => rintro ⟨⟩; simp at hpm
        | cons x xs =>
          rintro ⟨⟩
          exact hdis a (by simp) a (by simp) rfl
      obtain ⟨w1, h1, h2, h3, h4, h5, h6, h7, h8⟩ := unlink_spec hs hnd hta
      have hsub : (xs ++ p :: ys).Sublist (xs ++ p :: a :: ys) := by simp
      have hnot : a ∉ (xs ++ [p]) ++ ys := by
        have hperm : List.Perm ((xs ++ [p]) ++ a :: ys) (a :: ((xs ++ [p]) ++ ys)) := List.perm_middle
        rw [List.append_assoc] at hperm
        exact (List.nodup_cons.mp (hperm.nodup_iff.mp hnd)).1
      obtain ⟨w', g1, g2⟩ := ih (o := cb a o) (n := n)
        (w := { w1 with heap := Function.update w1.heap a none }) (by rw [h4]; exact hi) hn'
        (by rw [h3, h4]; exact h6) (hnd.sublist hsub) fun x hx => by
          obtain ⟨v, hv, hvr⟩ := hr x (by simp [hx])
          have hsame := h8 x
          rw [hv, Option.map_some, Option.map_eq_some_iff] at hsame
          obtain ⟨v', hv', hcount⟩ := hsame
          exact ⟨v', by simpa [Function.update_of_ne (hne x hx)] using hv',
            (congrArg Prod.fst hcount).trans hvr⟩
      refine ⟨w', ?_, g2.runs hle hnot h3 h4 h5 (fun x hx => h7 x (by simpa using hx)) h8⟩
      rw [← hnext] at g1
      rw [firstPtr, tickLoop_runs cb n hi hta (hra ▸ hpos) hhead h1 h2, g1,
        List.filter_cons_of_pos (by simpa using hle), List.foldl_cons]

/-- `tick` runs the timers that are due and goes on to the next slot. -/
theorem tick_spec (cb : ℕ → ω → ω) (hi : IsSlot w.curSlot) (h : Holds w w.curSlot xs)
    (hr : ∀ x ∈ xs, ∃ t, w.heap x = some t ∧ t.rotation = r x) :
    ∃ w', w.tick cb o = some (w', (due r xs).foldl (fun o a => cb a o) o) ∧
      w'.curSlot = (w.curSlot + 1) % slotCount ∧ Within w w' w.curSlot xs ∧
      Holds w' w.curSlot (kept r xs) ∧
      (∀ x ∈ kept r xs,
        (w'.heap x).map count = (w.heap x).map fun t => (t.rotation - 1, t.timeSlot)) ∧
      ∀ x ∈ due r xs, w'.heap x = none := by
  cases xs with
  | nil =>
    have hhead : w.slots w.curSlot = none := h.head_eq
    refine ⟨{ w with curSlot := (w.curSlot + 1) % slotCount }, ?_, rfl,
      ⟨Nat.le_refl _, fun _ _ => rfl, fun _ _ => rfl⟩, ⟨h.seg, h.nodup, h.bound⟩, by simp [kept], by simp [due]⟩
    simp [tick, slot_of_isSlot hi, hhead, tickLoop, due]
  | cons a ys =>
    have hhead : w.slots w.curSlot = some a := h.head_eq
    obtain ⟨t, hta, hra⟩ := hr a (by simp)
    have hnext : t.next = firstPtr none ys := next_eq_firstPtr [] h.seg hta
    have hlen := h.length_le
    have ham := (List.nodup_cons.mp h.nodup).1
    by_cases hpos : 0 < r a
    · -- the head stays, and the loop works behind it
      have hne : ∀ x ∈ ys, x ≠ a := fun x hx => by rintro rfl; exact ham hx
      have hs1 : links.Seg (Function.update w.heap a (some { t with rotation := t.rotation - 1 })) none
          (w.slots w.curSlot) ([] ++ a :: ys) none := h.seg.write hta rfl rfl
      obtain ⟨w', h1, h2⟩ := tickLoop_behind (o := o) (n := w.cells) cb
        (w := { w with heap := Function.update w.heap a (some { t with rotation := t.rotation - 1 }) })
        hi (by simp at hlen; omega) hs1 (by simpa using h.nodup) fun x hx => by
          simpa [Function.update_of_ne (hne x hx)] using hr x (by simp [hx])
      have hw : Walked r w w' [] (a :: ys) := h2.stays hta hpos ham
      have hkept : kept r (a :: ys) = (a :: ys).filter (0 < r ·) := by
        rw [kept, if_pos hpos, List.filter_cons_of_pos (by simpa using hpos)]
      have hdue : due r (a :: ys) = (a :: ys).filter (r · ≤ 0) := by
        rw [due, if_pos hpos, List.filter_cons_of_neg (by simpa using hpos)]
      have hsub := kept_sublist r (a :: ys)
      refine ⟨{ w' with curSlot := (w.curSlot + 1) % slotCount }, ?_, rfl,
        ⟨Nat.le_of_eq hw.cells.symm, fun j _ => congrFun hw.slots j, hw.heap⟩,
        ⟨?_, h.nodup.sublist hsub, fun x hx => ?_⟩, fun x hx => ?_, fun x hx => ?_⟩
      · have hhand := hw.hand
        rw [← hnext] at h1
        rw [hdue, List.filter_cons_of_neg (by simpa using hpos)]
        simp [tick, slot_of_isSlot hi, hhead, tickLoop_stays cb _ hta (hra ▸ hpos), h1, hhand]
      · show links.Seg w'.heap none (w'.slots w.curSlot) _ none
        rw [hw.slots, hkept]
        exact hw.seg
      · exact Nat.lt_of_lt_of_eq (h.bound x (hsub.subset hx)) hw.cells.symm
      · exact hw.turned x (hsub.subset hx) (pos_of_mem_kept hx)
      · obtain ⟨hx, hxr⟩ := of_mem_due hx
        exact hw.freed x hx hxr
    · -- the head runs, and with it the list is gone
      have hpos' : ¬ 0 < t.rotation := hra ▸ hpos
      simp only [kept, due, if_neg hpos]
      refine ⟨{ w with
          slots := Function.update w.slots w.curSlot none
          heap := Function.update w.heap a none
          curSlot := (w.curSlot + 1) % slotCount }, ?_, rfl,
        ⟨Nat.le_refl _, fun j hj => Function.update_of_ne hj _ _, fun x hx => ?_⟩,
        ⟨by simp, List.nodup_nil, by simp⟩, by simp, by simp⟩
      · have hfuel : ∃ m, w.cells = m + 1 := ⟨w.cells - 1, by simp at hlen; omega⟩
        obtain ⟨m, hm⟩ := hfuel
        cases hn : t.next <;>
          simp [tick, slot_of_isSlot hi, setSlot_of_isSlot hi, hhead, tickLoop, hta, hpos', hn, free,
            release, hm]
      · have hxa : x ≠ a := by rintro rfl; simp at hx
        exact Function.update_of_ne hxa _ _

end TimeWheel

end LinuxServer.Wheel
