import LinuxServer.TimeWheelRuns

/-!
# One turn of the wheel

`tick` drops the rest of the current slot when the first timer in it is due.  Everywhere
else a turn loses nothing.
-/

namespace LinuxServer.Wheel
open TimeWheel

variable {r : ℕ → ℤ} {xs : List ℕ}

/-- The first timer of the slot is not due, or no timer stands behind it. -/
def HeadWaits (r : ℕ → ℤ) (xs : List ℕ) : Prop := ∀ a ys, xs = a :: ys → r a = 0 → ys = []

theorem HeadWaits.kept_eq (h : HeadWaits r xs) (hr : ∀ x ∈ xs, 0 ≤ r x) :
    kept r xs = xs.filter (0 < r ·) := by
  cases xs with
  | nil => rfl
  | cons a xs =>
    by_cases hpos : 0 < r a
    · rw [kept, if_pos hpos, List.filter_cons_of_pos (by simpa using hpos)]
    · have ha := hr a (by simp)
      obtain rfl := h a xs rfl (by omega)
      rw [kept, if_neg hpos, List.filter_cons_of_neg (by simpa using hpos), List.filter_nil]

theorem HeadWaits.due_eq (h : HeadWaits r xs) (hr : ∀ x ∈ xs, 0 ≤ r x) :
    due r xs = xs.filter (r · = 0) := by
  cases xs with
  | nil => rfl
  | cons a xs =>
    have ha := hr a (by simp)
    by_cases hpos : 0 < r a
    · have hne : ¬ r a = 0 := by omega
      rw [due, if_pos hpos, List.filter_cons_of_neg (by simpa using hne)]
      apply List.filter_congr
      intro x hx
      have := hr x (by simp [hx])
      simp only [decide_eq_decide]
      omega
    · have ha0 : r a = 0 := by omega
      obtain rfl := h a xs rfl ha0
      rw [due, if_neg hpos, List.filter_cons_of_pos (by simpa using ha0), List.filter_nil]

variable {w w' : TimeWheel}

/-- The timers that are to run. -/
def TimeWheel.dueNow (w : TimeWheel) : List ℕ := (w.timers w.curSlot).filter (rotationAt w · = 0)

/-- What a turn is to do: the hand goes on, the timers that are due are freed, the others in
the slot stay in order and come one round closer, and nothing else is touched. -/
structure Turned (w w' : TimeWheel) : Prop where
  hand : w'.curSlot = (w.curSlot + 1) % slotCount
  wheel : Represented w'
  slot : w'.timers w.curSlot = (w.timers w.curSlot).filter (0 < rotationAt w ·)
  counts : ∀ x ∈ w'.timers w.curSlot,
    (w'.heap x).map count = (w.heap x).map fun t => (t.rotation - 1, t.timeSlot)
  freed : ∀ x, w'.heap x = none ↔ w.heap x = none ∨ x ∈ w.dueNow
  slots : ∀ i, i ≠ w.curSlot → w'.slots i = w.slots i
  others : ∀ x, x ∉ w.timers w.curSlot → w'.heap x = w.heap x

/-- Whatever the callbacks do elsewhere, `tick` runs those that are due, once and in order, and
loses nothing. -/
def WholeTurn (w : TimeWheel) : Prop :=
  ∀ (ω : Type) (cb : ℕ → ω → ω) (o : ω), ∃ w',
    w.tick cb o = some (w', w.dueNow.foldl (fun o a => cb a o) o) ∧ Turned w w'

theorem Represented.rotation (h : Represented w) {x : ℕ} (hx : x ∈ w.timers w.curSlot) :
    ∃ t, w.heap x = some t ∧ t.rotation = rotationAt w x := by
  obtain ⟨t, ht, -⟩ := h.timer _ h.hand x hx
  exact ⟨t, ht, by simp [rotationAt, ht]⟩

theorem Represented.rotation_nonneg (h : Represented w) {x : ℕ} (hx : x ∈ w.timers w.curSlot) :
    0 ≤ rotationAt w x := by
  obtain ⟨t, ht, -, hr⟩ := h.timer _ h.hand x hx
  rwa [rotationAt, ht, Option.elim_some]

/-- Behind a head that waits the loop does all that a turn is to do. -/
theorem wholeTurn_of_headWaits (h : Represented w) (hw : HeadWaits (rotationAt w) (w.timers w.curSlot)) :
    WholeTurn w := by
  intro ω cb o
  obtain ⟨w', h1, h2, h3, h4, h5, h6⟩ := tick_spec (o := o) cb h.hand (h.holds h.hand)
    fun x hx => h.rotation hx
  obtain ⟨w'', g1, g2, -⟩ := h.tick cb o
  obtain rfl : w' = w'' := congrArg Prod.fst (Option.some.inj (h1.symm.trans g1))
  have hkept := hw.kept_eq fun x hx => h.rotation_nonneg hx
  have hdue : due (rotationAt w) (w.timers w.curSlot) = w.dueNow :=
    hw.due_eq fun x hx => h.rotation_nonneg hx
  have hslot := h4.timers_eq
  rw [hdue] at h1 h6
  refine ⟨w', h1, h2, g2, hslot.trans hkept, ?_, ?_, h3.slots, h3.heap⟩
  · rw [hslot]
    exact h5
  · intro x
    by_cases hx : x ∈ w.timers w.curSlot
    · obtain ⟨t, ht, -⟩ := h.rotation hx
      by_cases hd : x ∈ w.dueNow
      · simp [h6 x hd, hd]
      · -- it is not due, so it was kept
        have hne : rotationAt w x ≠ 0 := by
          intro h0
          exact hd (List.mem_filter.mpr ⟨hx, by simpa using h0⟩)
        have hpos := h.rotation_nonneg hx
        have hk : x ∈ kept (rotationAt w) (w.timers w.curSlot) := by
          rw [hkept]
          exact List.mem_filter.mpr ⟨hx, by simpa using (by omega : 0 < rotationAt w x)⟩
        have hc := h5 x hk
        rw [ht, Option.map_some, Option.map_eq_some_iff] at hc
        obtain ⟨t', ht', -⟩ := hc
        simp [ht, ht', hd]
    · have hd : x ∉ w.dueNow := fun hd => hx (List.mem_filter.mp hd).1
      simp [h3.heap x hx, hd]

/-- A turn loses nothing exactly when the first timer of the slot is not due or is the only
one. -/
theorem wholeTurn_iff (h : Represented w) :
    WholeTurn w ↔ HeadWaits (rotationAt w) (w.timers w.curSlot) := by
  constructor
  · intro hall a ys hxs ha
    -- the callbacks note which timers ran, the last one first
    obtain ⟨w', h1, hturn⟩ := hall (List ℕ) List.cons []
    obtain ⟨w'', g1, -, -, g4, -⟩ := tick_spec (o := []) List.cons h.hand (h.holds h.hand)
      fun x hx => h.rotation hx
    have heq := Option.some.inj (h1.symm.trans g1)
    obtain rfl : w' = w'' := congrArg Prod.fst heq
    have hran := congrArg Prod.snd heq
    have hneg : ¬ 0 < rotationAt w a := by omega
    have hstay := g4.timers_eq.symm.trans hturn.slot
    simp only [dueNow, hxs, due, kept, if_neg hneg, List.foldl_cons, List.foldl_nil,
      List.filter_cons_of_neg (p := fun x => decide (0 < rotationAt w x)) (by simpa using hneg),
      List.filter_cons_of_pos (p := fun x => decide (rotationAt w x = 0)) (by simpa using ha),
      List.foldl_flip_cons_eq_append'] at hran hstay
    apply List.eq_nil_iff_forall_not_mem.mpr
    intro x hx
    have hnn := h.rotation_nonneg (x := x) (by simp [hxs, hx])
    rcases hnn.lt_or_eq with hpos | h0
    · have hmem : x ∈ ys.filter (0 < rotationAt w ·) := List.mem_filter.mpr ⟨hx, by simpa using hpos⟩
      rw [← hstay] at hmem
      cases hmem
    · have hmem : x ∈ ys.filter (rotationAt w · = 0) := List.mem_filter.mpr ⟨hx, by simpa using h0.symm⟩
      have hlen := congrArg List.length hran
      have hpos := List.length_pos_of_mem hmem
      simp at hlen
      exact absurd (hlen x hx) (by simpa using h0.symm)
  · exact wholeTurn_of_headWaits h

/-- Two timers in the current slot, the first with `r` rounds to go, the second due. -/
def twoTimers (r : ℤ) : TimeWheel where
  slots i := if i = 0 then some 1 else none
  curSlot := 0
  heap
    | 0 => some ⟨0, 0, none, some 1⟩
    | 1 => some ⟨r, 0, some 0, none⟩
    | _ => none
  cells := 2

theorem timers_twoTimers (r : ℤ) (i : ℤ) : (twoTimers r).timers i = if i = 0 then [1, 0] else [] := by
  by_cases hi : i = 0
  · subst hi
    rfl
  · simp [timers, twoTimers, hi, Linkage.chain]

theorem represented_twoTimers (r : ℤ) (hr : 0 ≤ r) : Represented (twoTimers r) := by
  have hseg : ∀ i, IsSlot i → links.Seg (twoTimers r).heap none ((twoTimers r).slots i)
      ((twoTimers r).timers i) none := by
    intro i _
    rw [timers_twoTimers]
    by_cases hi : i = 0
    · subst hi
      exact ⟨rfl, _, rfl, rfl, rfl, _, rfl, rfl, rfl⟩
    · simp [twoTimers, hi]
  have hhand : IsSlot 0 := by decide
  refine ⟨hhand, hseg, fun i _ => ?_, fun i _ a ha => ?_, fun i _ a ha => ?_⟩
  · rw [timers_twoTimers]
    split <;> simp
  · rw [timers_twoTimers] at ha
    split at ha <;> simp at ha
    rcases ha with rfl | rfl <;> simp [twoTimers]
  · rw [timers_twoTimers] at ha
    split at ha <;> simp at ha
    next hi =>
      subst hi
      rcases ha with rfl | rfl
      · exact ⟨_, rfl, rfl, hr⟩
      · exact ⟨_, rfl, rfl, Int.le_refl 0⟩

/-- Both timers are due, and only the first one runs. -/
theorem not_wholeTurn : Represented (twoTimers 0) ∧ ¬ WholeTurn (twoTimers 0) := by
  refine ⟨represented_twoTimers 0 (Int.le_refl 0), fun hall => ?_⟩
  obtain ⟨w', h1, -⟩ := hall (List ℕ) List.cons []
  have hran : ((twoTimers 0).tick List.cons []).map Prod.snd = some [1] := rfl
  rw [h1] at hran
  have hdue : (twoTimers 0).dueNow.foldl (fun o a => List.cons a o) [] = [0, 1] := rfl
  simp [hdue] at hran

theorem wholeTurn_two : WholeTurn (twoTimers 1) := by
  apply (wholeTurn_iff (represented_twoTimers 1 (by decide))).mpr
  rintro a ys hxs ha
  obtain ⟨rfl, -⟩ := List.cons.inj ((timers_twoTimers 1 0).symm.trans hxs)
  cases ha

end LinuxServer.Wheel
