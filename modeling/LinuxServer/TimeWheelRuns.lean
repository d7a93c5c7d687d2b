import LinuxServer.Runs
import LinuxServer.TimeWheelSpec

/-!
# The time wheel in use

Timers are added with any timeouts (nothing is added for a negative one), timers in the
wheel are deleted, and the wheel is turned, in any order.  Next to the wheel stand the
number of completed calls of `tick`, for every timer the number of ticks it was added with
and the calls completed before, and a record of the callbacks.
-/

namespace LinuxServer.Wheel
open TimeWheel

/-- A callback: the number of ticks its timer was added with, how many calls of `tick`
were completed by then, and the call that ran it. -/
structure Firing where
  ticks : ℤ
  added : ℕ
  call : ℕ
  deriving DecidableEq, Repr

structure System where
  wheel : TimeWheel
  calls : ℕ
  added : ℕ → ℤ × ℕ
  fired : List Firing

/-- `add_timer` comes with the address that `new` returns. -/
inductive Event
  | add (timeout : ℤ) (addr : ℕ)
  | del (timer : ℕ)
  | tick
  deriving DecidableEq, Repr

/-- The callback of the timer at `a`. -/
def fire (s : System) (a : ℕ) (fired : List Firing) : List Firing :=
  fired ++ [⟨(s.added a).1, (s.added a).2, s.calls + 1⟩]

def step (s : System) : Event → Option System
  | .add timeout addr => do
    let (w, timer) ← s.wheel.addTimer addr timeout
    some { s with
      wheel := w
      added := timer.elim s.added fun a => Function.update s.added a (ticksOf timeout, s.calls) }
  | .del timer => do
    let w ← s.wheel.delTimer (some timer)
    some { s with wheel := w }
  | .tick => do
    let (w, fired) ← s.wheel.tick (fire s) s.fired
    some { s with wheel := w, calls := s.calls + 1, fired := fired }

def Init (s : System) : Prop := s.wheel = .new ∧ s.calls = 0 ∧ s.fired = []

/-- The timers of all slots. -/
def TimeWheel.linked (w : TimeWheel) : List ℕ :=
  (List.range slotCount.toNat).flatMap fun i : ℕ => w.timers i

/-- `new` returns memory that is not in use, and only timers in the wheel are deleted. -/
def Legal (s : System) : Event → Prop
  | .add _ addr => s.wheel.heap addr = none
  | .del timer => timer ∈ s.wheel.linked
  | .tick => True

instance (s : System) : (e : Event) → Decidable (Legal s e)
  | .add _ _ => inferInstanceAs (Decidable (_ = _))
  | .del _ => inferInstanceAs (Decidable (_ ∈ _))
  | .tick => isTrue trivial

variable {s s' : System} {w w' : TimeWheel} {a b : ℕ} {i j : ℤ} {t : TwTimer}

theorem mem_linked : a ∈ w.linked ↔ ∃ i, IsSlot i ∧ a ∈ w.timers i := by
  simp only [linked, List.mem_flatMap, List.mem_range]
  constructor
  · rintro ⟨k, hk, ha⟩
    exact ⟨k, ⟨by omega, by omega⟩, ha⟩
  · rintro ⟨i, ⟨h1, h2⟩, ha⟩
    exact ⟨i.toNat, by omega, by rwa [Int.toNat_of_nonneg h1]⟩

/-! ## The representation -/

/-- Every slot is the head of a list of its own timers, linked in both directions and
without a cycle. -/
structure Represented (w : TimeWheel) : Prop where
  hand : IsSlot w.curSlot
  seg : ∀ i, IsSlot i → links.Seg w.heap none (w.slots i) (w.timers i) none
  nodup : ∀ i, IsSlot i → (w.timers i).Nodup
  bound : ∀ i, IsSlot i → ∀ a ∈ w.timers i, a < w.cells
  timer : ∀ i, IsSlot i → ∀ a ∈ w.timers i, ∃ t, w.heap a = some t ∧ t.timeSlot = i ∧ 0 ≤ t.rotation

theorem Represented.holds (h : Represented w) (hi : IsSlot i) : w.Holds i (w.timers i) :=
  ⟨h.seg i hi, h.nodup i hi, h.bound i hi⟩

/-- A timer occurs in one slot only. -/
theorem Represented.slot_unique (h : Represented w) (hi : IsSlot i) (hj : IsSlot j)
    (hai : a ∈ w.timers i) (haj : a ∈ w.timers j) : i = j := by
  obtain ⟨t, ht, hti, -⟩ := h.timer i hi a hai
  obtain ⟨u, hu, huj, -⟩ := h.timer j hj a haj
  obtain rfl : t = u := Option.some.inj (ht.symm.trans hu)
  exact hti.symm.trans huj

theorem represented_new : Represented .new := by
  have hnil : ∀ i, TimeWheel.new.timers i = [] := fun _ => rfl
  refine ⟨by decide, fun i _ => ?_, fun i _ => ?_, fun i _ => ?_, fun i _ => ?_⟩ <;> simp [hnil]
  rfl

/-- After a change to one slot the wheel is represented if the new list of that slot is. -/
theorem Represented.within {xs ys : List ℕ} (h : Represented w) (hhand : IsSlot w'.curSlot) (hi : IsSlot i)
    (hw : Within w w' i xs) (hxs : ∀ a ∈ xs, a ∈ w.timers i ∨ w.heap a = none) (hys : w'.Holds i ys)
    (htimer : ∀ a ∈ ys, ∃ t, w'.heap a = some t ∧ t.timeSlot = i ∧ 0 ≤ t.rotation) :
    Represented w' ∧ w'.timers i = ys ∧
      ∀ j, IsSlot j → j ≠ i → w'.timers j = w.timers j ∧ ∀ a ∈ w.timers j, w'.heap a = w.heap a := by
  -- the timers of another slot are not among those that changed
  have hnot : ∀ j, IsSlot j → j ≠ i → ∀ a ∈ w.timers j, a ∉ xs := by
    intro j hj hji a ha hax
    rcases hxs a hax with h' | h'
    · exact hji (h.slot_unique hj hi ha h')
    · obtain ⟨t, ht, -⟩ := h.timer j hj a ha
      simp [h'] at ht
  have hother : ∀ j, IsSlot j → j ≠ i → w'.Holds j (w.timers j) :=
    fun j hj hji => hw.holds (h.holds hj) hji (hnot j hj hji)
  have hall : ∀ j, IsSlot j → w'.Holds j (w'.timers j) ∧
      ∀ a ∈ w'.timers j, ∃ t, w'.heap a = some t ∧ t.timeSlot = j ∧ 0 ≤ t.rotation := by
    intro j hj
    rcases eq_or_ne j i with rfl | hji
    · rw [hys.timers_eq]
      exact ⟨hys, htimer⟩
    · have hj' := hother j hj hji
      rw [hj'.timers_eq]
      refine ⟨hj', fun a ha => ?_⟩
      rw [hw.heap a (hnot j hj hji a ha)]
      exact h.timer j hj a ha
  refine ⟨⟨hhand, fun j hj => (hall j hj).1.seg, fun j hj => (hall j hj).1.nodup,
    fun j hj => (hall j hj).1.bound, fun j hj => (hall j hj).2⟩, hys.timers_eq, fun j hj hji => ?_⟩
  exact ⟨(hother j hj hji).timers_eq, fun a ha => hw.heap a (hnot j hj hji a ha)⟩

theorem exists_of_count {c : ℤ × ℤ} (h : (w.heap a).map count = some c) :
    ∃ t, w.heap a = some t ∧ t.rotation = c.1 ∧ t.timeSlot = c.2 := by
  obtain ⟨t, ht, hc⟩ := Option.map_eq_some_iff.mp h
  exact ⟨t, ht, congrArg Prod.fst hc, congrArg Prod.snd hc⟩

theorem exists_of_same_count (h : (w'.heap a).map count = (w.heap a).map count) (ht : w.heap a = some t) :
    ∃ t', w'.heap a = some t' ∧ t'.rotation = t.rotation ∧ t'.timeSlot = t.timeSlot := by
  rw [ht] at h
  exact exists_of_count h

theorem Represented.addTimer {timeout : ℤ} (h : Represented w) (htime : 0 ≤ timeout)
    (ha : w.heap a = none) :
    ∃ w', w.addTimer a timeout = some (w', some a) ∧ Represented w' ∧ w'.curSlot = w.curSlot ∧
      ∀ i, IsSlot i → ∀ x ∈ w'.timers i,
        x = a ∧ i = (w.curSlot + ticksOf timeout % slotCount) % slotCount ∧
          (w'.heap x).map count = some (ticksOf timeout / slotCount, i) ∨
        x ≠ a ∧ x ∈ w.timers i ∧ (w'.heap x).map count = (w.heap x).map count := by
  have hfresh : ∀ j, IsSlot j → a ∉ w.timers j := by
    intro j hj ham
    obtain ⟨t, ht, -⟩ := h.timer j hj a ham
    simp [ha] at ht
  obtain ⟨i, hi⟩ : ∃ i, i = (w.curSlot + ticksOf timeout % slotCount) % slotCount := ⟨_, rfl⟩
  have hslot : IsSlot i := hi ▸ isSlot_mod _
  obtain ⟨w', h1, h2, h3, h4, h5, h6⟩ := addTimer_spec htime (hfresh i hslot) hi (h.holds hslot)
  have htimer : ∀ x ∈ a :: w.timers i, ∃ t, w'.heap x = some t ∧ t.timeSlot = i ∧ 0 ≤ t.rotation := by
    intro x hx
    rcases eq_or_ne x a with rfl | hxa
    · obtain ⟨t, ht, htr, hti⟩ := exists_of_count h5
      refine ⟨t, ht, hti, ?_⟩
      rw [htr]
      exact Int.ediv_nonneg (by simp [ticksOf]) slotCount_pos.le
    · obtain ⟨t, ht, hti, htr⟩ := h.timer i hslot x (by simpa [hxa] using hx)
      obtain ⟨t', ht', hr, hs⟩ := exists_of_same_count (h6 x hxa) ht
      exact ⟨t', ht', hs.trans hti, hr ▸ htr⟩
  obtain ⟨g1, g2, g3⟩ := h.within (h2 ▸ h.hand) hslot h3
    (fun x hx => (List.mem_cons.mp hx).symm.imp_right (by rintro rfl; exact ha)) h4 htimer
  refine ⟨w', h1, g1, h2, fun j hj x hx => ?_⟩
  rcases eq_or_ne x a with rfl | hxa
  · left
    rcases eq_or_ne j i with rfl | hji
    · exact ⟨rfl, hi, h5⟩
    · rw [(g3 j hj hji).1] at hx
      exact absurd hx (hfresh j hj)
  · refine .inr ⟨hxa, ?_, h6 x hxa⟩
    rcases eq_or_ne j i with rfl | hji
    · rw [g2] at hx
      simpa [hxa] using hx
    · rwa [(g3 j hj hji).1] at hx

/-- `del_timer` removes its target and nothing else, and keeps the order. -/
theorem Represented.delTimer (h : Represented w) (ha : a ∈ w.linked) :
    ∃ w', w.delTimer (some a) = some w' ∧ Represented w' ∧ w'.curSlot = w.curSlot ∧
      w'.heap a = none ∧ (∀ i, IsSlot i → w'.timers i = (w.timers i).erase a) ∧
      ∀ x, x ≠ a → (w'.heap x).map count = (w.heap x).map count := by
  obtain ⟨i, hi, hai⟩ := mem_linked.mp ha
  obtain ⟨t, ht, hti, -⟩ := h.timer i hi a hai
  obtain ⟨w', h1, h2, h3, h4, h5, h6⟩ := delTimer_spec hi (h.holds hi) hai ht hti
  have htimer : ∀ x ∈ (w.timers i).erase a, ∃ t, w'.heap x = some t ∧ t.timeSlot = i ∧ 0 ≤ t.rotation := by
    intro x hx
    obtain ⟨hxa, hx⟩ := (h.nodup i hi).mem_erase_iff.mp hx
    obtain ⟨t, ht, hti, htr⟩ := h.timer i hi x hx
    obtain ⟨t', ht', hr, hs⟩ := exists_of_same_count (h6 x hxa) ht
    exact ⟨t', ht', hs.trans hti, hr ▸ htr⟩
  obtain ⟨g1, g2, g3⟩ := h.within (h2 ▸ h.hand) hi h3 (fun x hx => .inl hx) h4 htimer
  refine ⟨w', h1, g1, h2, h5, fun j hj => ?_, h6⟩
  rcases eq_or_ne j i with rfl | hji
  · exact g2
  · rw [(g3 j hj hji).1, List.erase_of_not_mem fun haj => hji (h.slot_unique hj hi haj hai)]

/-- The rotation of the timer at `a`. -/
def rotationAt (w : TimeWheel) (a : ℕ) : ℤ := (w.heap a).elim 0 TwTimer.rotation

theorem Represented.tick {ω : Type} (h : Represented w) (cb : ℕ → ω → ω) (o : ω) :
    ∃ w', w.tick cb o =
        some (w', (due (rotationAt w) (w.timers w.curSlot)).foldl (fun o a => cb a o) o) ∧
      Represented w' ∧ w'.curSlot = (w.curSlot + 1) % slotCount ∧
      ∀ i, IsSlot i → ∀ x ∈ w'.timers i, x ∈ w.timers i ∧
        (w'.heap x).map count =
          (w.heap x).map fun t => (if i = w.curSlot then t.rotation - 1 else t.rotation, t.timeSlot) := by
  have hi := h.hand
  have hr : ∀ x ∈ w.timers w.curSlot, ∃ t, w.heap x = some t ∧ t.rotation = rotationAt w x := by
    intro x hx
    obtain ⟨t, ht, -⟩ := h.timer _ hi x hx
    exact ⟨t, ht, by simp [rotationAt, ht]⟩
  obtain ⟨w', h1, h2, h3, h4, h5, -⟩ := tick_spec (o := o) cb hi (h.holds hi) hr
  have hsub := kept_sublist (rotationAt w) (w.timers w.curSlot)
  have htimer : ∀ x ∈ kept (rotationAt w) (w.timers w.curSlot),
      ∃ t, w'.heap x = some t ∧ t.timeSlot = w.curSlot ∧ 0 ≤ t.rotation := by
    intro x hx
    obtain ⟨t, ht, hti, -⟩ := h.timer _ hi x (hsub.subset hx)
    have hpos := pos_of_mem_kept hx
    have hc := h5 x hx
    rw [rotationAt, ht, Option.elim_some] at hpos
    rw [ht, Option.map_some] at hc
    obtain ⟨t', ht', hr', hs'⟩ := exists_of_count hc
    exact ⟨t', ht', hs'.trans hti, by rw [hr']; show 0 ≤ t.rotation - 1; omega⟩
  obtain ⟨g1, g2, g3⟩ := h.within (h2 ▸ isSlot_mod _) hi h3 (fun x hx => .inl hx) h4 htimer
  refine ⟨w', h1, g1, h2, fun j hj x hx => ?_⟩
  rcases eq_or_ne j w.curSlot with rfl | hji
  · rw [g2] at hx
    refine ⟨hsub.subset hx, ?_⟩
    rw [h5 x hx]
    simp
  · rw [(g3 j hj hji).1] at hx
    refine ⟨hx, ?_⟩
    rw [(g3 j hj hji).2 x hx]
    simp only [hji, if_false]
    rfl

/-! ## The schedule -/

/-- The timer at `a` has as many ticks to go as it was added with, less the calls of
`tick` completed since. -/
def OnSchedule (s : System) (a : ℕ) : Prop :=
  ∃ t, s.wheel.heap a = some t ∧
    t.rotation * slotCount + (t.timeSlot - s.wheel.curSlot) % slotCount =
      (s.added a).1 - (s.calls - (s.added a).2)

/-- Every timer in the wheel is on schedule, and every callback ran in the call of `tick`
that follows as many others as its timer was added with. -/
structure Punctual (s : System) : Prop where
  represented : Represented s.wheel
  timers : ∀ i, IsSlot i → ∀ a ∈ s.wheel.timers i, OnSchedule s a
  fired : ∀ f ∈ s.fired, (f.call : ℤ) - f.added = f.ticks + 1

theorem distance_add (ticks : ℤ) {cur : ℤ} (hcur : IsSlot cur) :
    ticks / slotCount * slotCount + ((cur + ticks % slotCount) % slotCount - cur) % slotCount = ticks := by
  obtain ⟨h1, h2⟩ := hcur
  simp only [slotCount] at *
  omega

/-- What the hand comes closer to a slot by one step. -/
theorem distance_tick {cur i : ℤ} (hcur : IsSlot cur) (hi : IsSlot i) :
    (i - (cur + 1) % slotCount) % slotCount =
      if i = cur then slotCount - 1 else (i - cur) % slotCount - 1 := by
  obtain ⟨h1, h2⟩ := hcur
  obtain ⟨h3, h4⟩ := hi
  simp only [slotCount] at *
  split <;> omega

/-- For a negative timeout `add_timer` returns `NULL` and does nothing else. -/
theorem addTimer_neg {timeout : ℤ} (htime : timeout < 0) : w.addTimer a timeout = some (w, none) :=
  if_pos htime

theorem Punctual.add {timeout : ℤ} {addr : ℕ} (h : Punctual s) (haddr : s.wheel.heap addr = none) :
    ∃ s', step s (.add timeout addr) = some s' ∧ Punctual s' := by
  rcases lt_or_ge timeout 0 with htime | htime
  · exact ⟨s, by simp [step, addTimer_neg htime], h⟩
  obtain ⟨w', h1, h2, h3, h4⟩ := h.represented.addTimer htime haddr
  refine ⟨{ s with wheel := w', added := Function.update s.added addr (ticksOf timeout, s.calls) },
    by simp [step, h1], h2, fun i hi x hx => ?_, h.fired⟩
  rcases h4 i hi x hx with ⟨rfl, hslot, hc⟩ | ⟨hxa, hx, hc⟩
  · obtain ⟨t, ht, hr, hti⟩ := exists_of_count hc
    refine ⟨t, ht, ?_⟩
    have := distance_add (ticksOf timeout) h.represented.hand
    simp only [hr, hti, hslot, h3, Function.update_self]
    omega
  · obtain ⟨t, ht, hsched⟩ := h.timers i hi x hx
    obtain ⟨t', ht', hr, hti⟩ := exists_of_same_count hc ht
    refine ⟨t', ht', ?_⟩
    simpa [hr, hti, h3, Function.update_of_ne hxa] using hsched

theorem Punctual.del (h : Punctual s) (ha : a ∈ s.wheel.linked) :
    ∃ s', step s (.del a) = some s' ∧ Punctual s' ∧
      ∀ i, IsSlot i → s'.wheel.timers i = (s.wheel.timers i).erase a := by
  obtain ⟨w', h1, h2, h3, h4, h5, h6⟩ := h.represented.delTimer ha
  refine ⟨{ s with wheel := w' }, by simp [step, h1], ⟨h2, fun i hi x hx => ?_, h.fired⟩, h5⟩
  have hx : x ∈ (s.wheel.timers i).erase a := h5 i hi ▸ hx
  obtain ⟨hxa, hx⟩ := (h.represented.nodup i hi).mem_erase_iff.mp hx
  obtain ⟨t, ht, hsched⟩ := h.timers i hi x hx
  obtain ⟨t', ht', hr, hti⟩ := exists_of_same_count (h6 x hxa) ht
  exact ⟨t', ht', by simpa [hr, hti, h3] using hsched⟩

/-- A tick adds callbacks of due timers. -/
theorem mem_foldl_fire {f : Firing} (xs : List ℕ) {l : List Firing}
    (hf : f ∈ xs.foldl (fun o a => fire s a o) l) :
    f ∈ l ∨ ∃ a ∈ xs, f = ⟨(s.added a).1, (s.added a).2, s.calls + 1⟩ := by
  induction xs generalizing l with
  | nil => exact .inl hf
  | cons a xs ih =>
    rcases ih hf with h | ⟨b, hb, rfl⟩
    · rcases List.mem_append.mp h with h | h
      · exact .inl h
      · exact .inr ⟨a, by simp, by simpa using h⟩
    · exact .inr ⟨b, by simp [hb], rfl⟩

theorem Punctual.tick (h : Punctual s) : ∃ s', step s .tick = some s' ∧ Punctual s' := by
  obtain ⟨w', h1, h2, h3, h4⟩ := h.represented.tick (fire s) s.fired
  refine ⟨_, by simp only [step, h1]; rfl, h2, fun i hi x hx => ?_, fun f hf => ?_⟩
  · obtain ⟨hx, hc⟩ := h4 i hi x hx
    obtain ⟨t, ht, hsched⟩ := h.timers i hi x hx
    obtain ⟨u, hu, hti, -⟩ := h.represented.timer i hi x hx
    obtain rfl : t = u := Option.some.inj (ht.symm.trans hu)
    rw [ht, Option.map_some] at hc
    obtain ⟨t', ht', hr, hs⟩ := exists_of_count hc
    refine ⟨t', ht', ?_⟩
    have hdist := distance_tick h.represented.hand hi
    simp only [h3, hr, hs, hti, hdist] at hsched ⊢
    push_cast
    -- in the current slot the distance starts again, for one round less
    split
    next hcur =>
      subst hcur
      simp only [Int.sub_self, Int.zero_emod] at hsched
      simp only [slotCount] at *
      omega
    next => omega
  · rcases mem_foldl_fire _ hf with hf | ⟨a, ha, rfl⟩
    · exact h.fired f hf
    · -- it ran in the current slot, with no round left
      obtain ⟨ha, hrot⟩ := of_mem_due ha
      have hi := h.represented.hand
      obtain ⟨t, ht, hsched⟩ := h.timers _ hi a ha
      obtain ⟨u, hu, hti, hu0⟩ := h.represented.timer _ hi a ha
      obtain rfl : t = u := Option.some.inj (ht.symm.trans hu)
      rw [rotationAt, ht, Option.elim_some] at hrot
      have hrot0 : t.rotation = 0 := Int.le_antisymm hrot hu0
      simp only [hrot0, hti, Int.sub_self, Int.zero_emod, Int.zero_mul] at hsched
      push_cast
      omega

theorem punctual_init (h : Init s) : Punctual s := by
  obtain ⟨hw, -, hf⟩ := h
  refine ⟨hw ▸ represented_new, fun i _ a ha => ?_, fun f h => ?_⟩
  · rw [hw] at ha
    cases ha
  · rw [hf] at h
    cases h

/-- No operation crashes, and all of them keep the timers on schedule. -/
theorem Punctual.step {e : Event} (h : Punctual s) (hok : Legal s e) :
    ∃ s', Wheel.step s e = some s' ∧ Punctual s' := by
  cases e with
  | add timeout addr => exact h.add hok
  | del timer =>
    obtain ⟨s', h1, h2, -⟩ := h.del hok
    exact ⟨s', h1, h2⟩
  | tick => exact h.tick

theorem punctual_reach (h : Reach Init Legal step s) : Punctual s := by
  refine h.invariant (fun _ => punctual_init) fun s e s' hs hok hstep => ?_
  obtain ⟨t, ht, hp⟩ := hs.step hok
  obtain rfl : t = s' := Option.some.inj (ht.symm.trans hstep)
  exact hp

/-- In every run the distance of a timer in the wheel is the number of its ticks less those
completed since it was added, and every callback runs in the tick after that many. -/
theorem fired_on_time (h : Reach Init Legal step s) :
    (∀ i, IsSlot i → ∀ a ∈ s.wheel.timers i, ∃ t, s.wheel.heap a = some t ∧
      t.rotation * slotCount + (t.timeSlot - s.wheel.curSlot) % slotCount =
        (s.added a).1 - (s.calls - (s.added a).2)) ∧
      ∀ f ∈ s.fired, (f.call : ℤ) - f.added = f.ticks + 1 :=
  ⟨(punctual_reach h).timers, (punctual_reach h).fired⟩

/-- A new wheel, with memory zeroed around it. -/
def start : System := ⟨.new, 0, fun _ => (0, 0), []⟩

/-- Two timers, the first of which has run. -/
theorem fired_on_time_two :
    let s := (play Legal step start [.add 0 0, .add 61 1, .tick, .tick]).get (by decide)
    (∀ i, IsSlot i → ∀ a ∈ s.wheel.timers i, ∃ t, s.wheel.heap a = some t ∧
      t.rotation * slotCount + (t.timeSlot - s.wheel.curSlot) % slotCount =
        (s.added a).1 - (s.calls - (s.added a).2)) ∧
      ∀ f ∈ s.fired, (f.call : ℤ) - f.added = f.ticks + 1 := by
  intro s
  exact fired_on_time (reach_of_play ⟨rfl, rfl, rfl⟩ (Option.some_get _).symm)

/-- In every run the slots hold lists that are linked in both directions, share no timer and
hold no freed one, every operation completes, and `del_timer` takes out its target only. -/
theorem wheel_represented (h : Reach Init Legal step s) :
    Represented s.wheel ∧
      (∀ i j a, IsSlot i → IsSlot j → a ∈ s.wheel.timers i → a ∈ s.wheel.timers j → i = j) ∧
      (∀ e, Legal s e → ∃ s', step s e = some s') ∧
      ∀ a ∈ s.wheel.linked, ∃ s', step s (.del a) = some s' ∧
        ∀ i, IsSlot i → s'.wheel.timers i = (s.wheel.timers i).erase a := by
  have hp := punctual_reach h
  refine ⟨hp.represented, fun i j a => hp.represented.slot_unique, fun e hok => ?_, fun a ha => ?_⟩
  · obtain ⟨s', h1, -⟩ := hp.step hok
    exact ⟨s', h1⟩
  · obtain ⟨s', h1, -, h2⟩ := hp.del ha
    exact ⟨s', h1, h2⟩

/-- Three timers in one slot, of which one is deleted, a refused one, and two ticks. -/
theorem wheel_represented_three :
    let s := (play Legal step start [.add 0 0, .add 61 1, .add (-1) 2, .add 121 2, .del 1, .tick, .tick]).get
      (by decide)
    Represented s.wheel ∧
      (∀ i j a, IsSlot i → IsSlot j → a ∈ s.wheel.timers i → a ∈ s.wheel.timers j → i = j) ∧
      (∀ e, Legal s e → ∃ s', step s e = some s') ∧
      ∀ a ∈ s.wheel.linked, ∃ s', step s (.del a) = some s' ∧
        ∀ i, IsSlot i → s'.wheel.timers i = (s.wheel.timers i).erase a := by
  intro s
  exact wheel_represented (reach_of_play ⟨rfl, rfl, rfl⟩ (Option.some_get _).symm)

end LinuxServer.Wheel
