import LinuxServer.TimeWheelTurn

/-!
# The end of a time wheel

The destructor frees the timers of every slot.  What a turn has dropped before is not among them.
-/

namespace LinuxServer.Wheel

namespace TimeWheel

/-- The loop of `~time_wheel` over the timers of slot `i`. -/
def clearLoop (i : ℤ) : ℕ → TimeWheel → Option ℕ → Option TimeWheel
  | 0, _, _ => none
  | _ + 1, w, none => some w
  | n + 1, w, some a => do
    let t ← w.heap a
    let w ← w.setSlot i t.next
    let w ← w.free a
    let tmp ← w.slot i
    clearLoop i n w tmp

/-- A round of its loop over the slots. -/
def clearSlot (w : TimeWheel) (i : ℤ) : Option TimeWheel := do
  let tmp ← w.slot i
  clearLoop i (w.cells + 1) w tmp

/-- `~time_wheel()`. -/
def destroy (w : TimeWheel) : Option TimeWheel :=
  (List.range slotCount.toNat).foldlM (fun w i => w.clearSlot i) w

end TimeWheel

open TimeWheel

variable {w w' : TimeWheel} {a : ℕ} {i : ℤ} {t : TwTimer} {xs ys : List ℕ}

theorem clearLoop_eq (hi : IsSlot i) (n : ℕ) (w : TimeWheel) : clearLoop i n w (w.slots i) =
    (links.releaseChain n w.heap (w.slots i)).map fun h =>
      { w with slots := Function.update w.slots i none, heap := h } := by
  induction n generalizing w with
  | zero => rfl
  | succ n ih =>
    cases hslot : w.slots i with
    | none =>
      have hw : w = { w with slots := Function.update w.slots i none } := by
        rw [← hslot, Function.update_eq_self]
      simpa [clearLoop, Linkage.releaseChain] using hw
    | some a =>
      cases hta : w.heap a with
      | none => simp [clearLoop, Linkage.releaseChain, hta]
      | some t =>
        have hrest := ih { w with
          slots := Function.update w.slots i t.next, heap := Function.update w.heap a none }
        simpa [clearLoop, Linkage.releaseChain, Linkage.release, free, hta, setSlot_of_isSlot hi,
          slot_of_isSlot hi] using hrest

/-- A slot is emptied. -/
theorem TimeWheel.Holds.clearSlot (hi : IsSlot i) (h : w.Holds i xs) : w.clearSlot i = some { w with
    slots := Function.update w.slots i none, heap := fun x => if x ∈ xs then none else w.heap x } := by
  rw [TimeWheel.clearSlot, slot_of_isSlot hi]
  show clearLoop i (w.cells + 1) w (w.slots i) = _
  rw [clearLoop_eq hi, h.seg.releaseChain_eq h.nodup (Nat.lt_succ_of_le h.length_le), Option.map_some]

/-- One slot after the other is emptied, and the timers of the others stay as they are. -/
theorem clearSlots_spec {ts : ℕ → List ℕ} {ks : List ℕ} (hks : ks.Nodup) (hslot : ∀ k ∈ ks, IsSlot k)
    (hw : ∀ k ∈ ks, w.Holds k (ts k)) (hdis : ∀ j ∈ ks, ∀ k ∈ ks, ∀ x ∈ ts j, x ∈ ts k → j = k) :
    ∃ w', ks.foldlM (fun w (i : ℕ) => w.clearSlot i) w = some w' ∧
      ∀ x, w'.heap x = if x ∈ ks.flatMap ts then none else w.heap x := by
  induction ks generalizing w with
  | nil => exact ⟨w, rfl, by simp⟩
  | cons k ks ih =>
    obtain ⟨hkm, hks⟩ := List.nodup_cons.mp hks
    have hk := hw k List.mem_cons_self
    have hi := hslot k List.mem_cons_self
    have hother : ∀ j ∈ ks, Holds { w with
        slots := Function.update w.slots k none
        heap := fun x => if x ∈ ts k then none else w.heap x } j (ts j) := by
      intro j hj
      have hjk : j ≠ k := fun heq => hkm (heq ▸ hj)
      refine (hw j (List.mem_cons_of_mem _ hj)).frame (Function.update_of_ne (by omega) _ _) le_rfl ?_
      intro x hx
      exact if_neg fun hxk => hjk (hdis j (List.mem_cons_of_mem _ hj) k List.mem_cons_self x hx hxk)
    obtain ⟨w', h5, h6⟩ := ih hks (fun j hj => hslot j (List.mem_cons_of_mem _ hj)) hother
      fun j hj l hl => hdis j (List.mem_cons_of_mem _ hj) l (List.mem_cons_of_mem _ hl)
    refine ⟨w', ?_, fun x => ?_⟩
    · rw [List.foldlM_cons, hk.clearSlot hi]
      exact h5
    · rw [h6, List.flatMap_cons]
      simp only [List.mem_append]
      split_ifs <;> tauto

/-- The destructor frees what is linked, and nothing else. -/
theorem Represented.destroy (h : Represented w) :
    ∃ w', w.destroy = some w' ∧ ∀ x, w'.heap x = if x ∈ w.linked then none else w.heap x := by
  have hslot : ∀ k ∈ List.range slotCount.toNat, IsSlot (k : ℤ) := by
    intro k hk
    have := List.mem_range.mp hk
    exact ⟨by omega, by omega⟩
  refine clearSlots_spec List.nodup_range hslot (fun k hk => h.holds (hslot k hk)) ?_
  intro j hj k hk x hx hx'
  exact Int.ofNat_inj.mp (h.slot_unique (hslot j hj) (hslot k hk) hx hx')

/-! ## What a turn has dropped -/

/-- A timer is alive that no slot leads to. -/
def Leaks (w : TimeWheel) : Prop := ∃ a, w.heap a ≠ none ∧ a ∉ w.linked

/-- The turn does not drop a timer. -/
def DropsNone (s : System) : Event → Prop
  | .tick => HeadWaits (rotationAt s.wheel) (s.wheel.timers s.wheel.curSlot)
  | _ => True

theorem none_iff_of_count {h h' : ℕ → Option TwTimer} (hc : (h' a).map count = (h a).map count) :
    h' a = none ↔ h a = none := by
  rw [← Option.map_eq_none_iff (f := count), hc, Option.map_eq_none_iff]

theorem leaks_add {timeout : ℤ} {p : Option ℕ} (h : Represented w) (ha : w.heap a = none)
    (hadd : w.addTimer a timeout = some (w', p)) : Leaks w' ↔ Leaks w := by
  rcases lt_or_ge timeout 0 with htime | htime
  · obtain ⟨rfl, -⟩ := Prod.mk.inj (Option.some.inj (hadd.symm.trans (addTimer_neg htime)))
    exact Iff.rfl
  have hfresh : a ∉ w.linked := by
    intro hmem
    obtain ⟨i, hi, ham⟩ := mem_linked.mp hmem
    obtain ⟨t, ht, -⟩ := h.timer i hi a ham
    simp [ha] at ht
  obtain ⟨i, hi⟩ : ∃ i, i = (w.curSlot + ticksOf timeout % slotCount) % slotCount := ⟨_, rfl⟩
  have hslot : IsSlot i := hi ▸ isSlot_mod _
  have hai : a ∉ w.timers i := fun ham => hfresh (mem_linked.mpr ⟨i, hslot, ham⟩)
  obtain ⟨w1, h1, -, h3, h4, h5, h6⟩ := addTimer_spec htime hai hi (h.holds hslot)
  obtain ⟨rfl, -⟩ := Prod.mk.inj (Option.some.inj (hadd.symm.trans h1))
  have hlinked : ∀ x, x ∈ w'.linked ↔ x = a ∨ x ∈ w.linked := by
    intro x
    have hother : ∀ j, IsSlot j → j ≠ i → w'.timers j = w.timers j := by
      intro j hj hji
      refine (h3.holds (h.holds hj) hji fun y hy hy' => ?_).timers_eq
      rcases List.mem_cons.mp hy' with rfl | hy'
      · exact hfresh (mem_linked.mpr ⟨j, hj, hy⟩)
      · exact hji (h.slot_unique hj hslot hy hy')
    simp only [mem_linked]
    constructor
    · rintro ⟨j, hj, hx⟩
      rcases eq_or_ne j i with rfl | hji
      · rw [h4.timers_eq] at hx
        exact (List.mem_cons.mp hx).imp_right fun hx => ⟨j, hj, hx⟩
      · exact .inr ⟨j, hj, hother j hj hji ▸ hx⟩
    · rintro (rfl | ⟨j, hj, hx⟩)
      · exact ⟨i, hslot, by simp [h4.timers_eq]⟩
      · rcases eq_or_ne j i with rfl | hji
        · exact ⟨j, hj, by simp [h4.timers_eq, hx]⟩
        · exact ⟨j, hj, (hother j hj hji).symm ▸ hx⟩
  constructor
  · rintro ⟨x, hx, hnot⟩
    rw [hlinked, not_or] at hnot
    exact ⟨x, fun h0 => hx ((none_iff_of_count (h6 x hnot.1)).mpr h0), hnot.2⟩
  · rintro ⟨x, hx, hnot⟩
    have hxa : x ≠ a := by
      rintro rfl
      exact hx ha
    exact ⟨x, fun h0 => hx ((none_iff_of_count (h6 x hxa)).mp h0),
      fun hmem => ((hlinked x).mp hmem).elim hxa hnot⟩

theorem leaks_del (h : Represented w) (ha : a ∈ w.linked) (hdel : w.delTimer (some a) = some w') :
    Leaks w' ↔ Leaks w := by
  obtain ⟨w1, h1, -, -, h4, h5, h6⟩ := h.delTimer ha
  obtain rfl := Option.some.inj (hdel.symm.trans h1)
  have hlinked : ∀ x, x ≠ a → (x ∈ w'.linked ↔ x ∈ w.linked) := by
    intro x hx
    simp only [mem_linked]
    constructor
    · rintro ⟨j, hj, hmem⟩
      exact ⟨j, hj, List.mem_of_mem_erase (h5 j hj ▸ hmem)⟩
    · rintro ⟨j, hj, hmem⟩
      exact ⟨j, hj, (h5 j hj).symm ▸ (List.mem_erase_of_ne hx).mpr hmem⟩
  constructor
  · rintro ⟨x, hx, hnot⟩
    have hxa : x ≠ a := by
      rintro rfl
      exact hx h4
    exact ⟨x, fun h0 => hx ((none_iff_of_count (h6 x hxa)).mpr h0),
      fun hmem => hnot ((hlinked x hxa).mpr hmem)⟩
  · rintro ⟨x, hx, hnot⟩
    have hxa : x ≠ a := by
      rintro rfl
      exact hnot ha
    exact ⟨x, fun h0 => hx ((none_iff_of_count (h6 x hxa)).mp h0),
      fun hmem => hnot ((hlinked x hxa).mp hmem)⟩

/-! A turn frees only timers of the current slot, so that what is lost stays lost. -/

variable {ω : Type} {cb : ℕ → ω → ω} {o o' : ω}

theorem linked_tick (h : Represented w) (htick : w.tick cb o = some (w', o')) {x : ℕ}
    (hx : x ∈ w'.linked) : x ∈ w.linked := by
  obtain ⟨w1, h1, -, -, h4⟩ := h.tick cb o
  obtain ⟨rfl, -⟩ := Prod.mk.inj (Option.some.inj (htick.symm.trans h1))
  obtain ⟨j, hj, hmem⟩ := mem_linked.mp hx
  exact mem_linked.mpr ⟨j, hj, (h4 j hj x hmem).1⟩

theorem leaks_tick (h : Represented w) (htick : w.tick cb o = some (w', o')) (hl : Leaks w) : Leaks w' := by
  obtain ⟨x, hx, hnot⟩ := hl
  obtain ⟨w1, h1, -, h3, -⟩ := tick_spec (o := o) cb h.hand (h.holds h.hand) fun x hx => h.rotation hx
  obtain ⟨rfl, -⟩ := Prod.mk.inj (Option.some.inj (htick.symm.trans h1))
  have hsame : w'.heap x = w.heap x := h3.heap x fun hmem => hnot (mem_linked.mpr ⟨_, h.hand, hmem⟩)
  exact ⟨x, hsame ▸ hx, fun hmem => hnot (linked_tick h htick hmem)⟩

/-- Behind a head that waits nothing is lost. -/
theorem leaks_of_tick (h : Represented w) (hw : HeadWaits (rotationAt w) (w.timers w.curSlot))
    (htick : w.tick cb o = some (w', o')) (hl : Leaks w') : Leaks w := by
  obtain ⟨x, hx, hnot⟩ := hl
  obtain ⟨w1, h1, hturn⟩ := wholeTurn_of_headWaits h hw ω cb o
  obtain ⟨rfl, -⟩ := Prod.mk.inj (Option.some.inj (htick.symm.trans h1))
  have hlive := (not_congr (hturn.freed x)).mp hx
  rw [not_or] at hlive
  refine ⟨x, hlive.1, fun hmem => hnot ?_⟩
  obtain ⟨j, hj, hxj⟩ := mem_linked.mp hmem
  refine mem_linked.mpr ⟨j, hj, ?_⟩
  rcases eq_or_ne j w.curSlot with rfl | hji
  · have hne : rotationAt w x ≠ 0 := fun h0 => hlive.2 (List.mem_filter.mpr ⟨hxj, by simpa using h0⟩)
    have hnn := h.rotation_nonneg hxj
    rw [hturn.slot]
    exact List.mem_filter.mpr ⟨hxj, by simpa using (by omega : 0 < rotationAt w x)⟩
  · have hseg : links.Seg w'.heap none (w'.slots j) (w.timers j) none := by
      rw [hturn.slots j hji]
      exact (h.seg j hj).congr fun y hy => hturn.others y fun hy' => hji (h.slot_unique hj h.hand hy hy')
    rw [(hturn.wheel.seg j hj).unique rfl hseg]
    exact hxj

theorem tick_drops (cb : ℕ → ω → ω) (hi : IsSlot w.curSlot) (h : w.Holds w.curSlot (a :: ys))
    (hta : w.heap a = some t) (hdue : ¬ 0 < t.rotation) : w.tick cb o =
      some ({ w with
        slots := Function.update w.slots w.curSlot none
        heap := Function.update w.heap a none
        curSlot := (w.curSlot + 1) % slotCount }, cb a o) := by
  have hhead : w.slots w.curSlot = some a := h.head_eq
  obtain ⟨m, hm⟩ : ∃ m, w.cells = m + 1 := by
    have hlen := h.length_le
    exact ⟨w.cells - 1, by simp at hlen; omega⟩
  cases hn : t.next <;>
    simp [tick, slot_of_isSlot hi, setSlot_of_isSlot hi, hhead, tickLoop, hta, hdue, hn, free_of_some, hm]

/-- Behind a head that is due everything is lost. -/
theorem leaks_of_drop (h : Represented w) (hw : ¬ HeadWaits (rotationAt w) (w.timers w.curSlot))
    (htick : w.tick cb o = some (w', o')) : Leaks w' := by
  simp only [HeadWaits, not_forall] at hw
  obtain ⟨a, ys, hts, hdue, hys⟩ := hw
  obtain ⟨b, zs, rfl⟩ := List.exists_cons_of_ne_nil hys
  have hhold := h.holds h.hand
  rw [hts] at hhold
  have hb : b ∈ w.timers w.curSlot := by simp [hts]
  obtain ⟨t, hta, hrot⟩ := h.rotation (x := a) (by simp [hts])
  obtain ⟨u, hub, -⟩ := h.rotation hb
  -- what stood behind the head is still alive
  have hlive : w'.heap b ≠ none := by
    have hdrop := tick_drops (o := o) cb h.hand hhold hta (by omega)
    obtain ⟨rfl, -⟩ := Prod.mk.inj (Option.some.inj (htick.symm.trans hdrop))
    have hba : b ≠ a := by
      rintro rfl
      exact (List.nodup_cons.mp hhold.nodup).1 List.mem_cons_self
    simp [hba, hub]
  -- and the slot is empty
  have hslot : w'.timers w.curSlot = [] := by
    obtain ⟨w1, h1, -, -, h4, -⟩ := tick_spec (o := o) cb h.hand (h.holds h.hand) fun x hx => h.rotation hx
    obtain ⟨rfl, -⟩ := Prod.mk.inj (Option.some.inj (htick.symm.trans h1))
    rw [h4.timers_eq, hts, kept, if_neg (by omega)]
  refine ⟨b, hlive, fun hmem => ?_⟩
  obtain ⟨w1, h1, -, -, h4⟩ := h.tick cb o
  obtain ⟨rfl, -⟩ := Prod.mk.inj (Option.some.inj (htick.symm.trans h1))
  obtain ⟨j, hj, hbj⟩ := mem_linked.mp hmem
  obtain rfl := h.slot_unique hj h.hand (h4 j hj b hbj).1 hb
  rw [hslot] at hbj
  cases hbj

/-! ## The whole use -/

variable {s s' : System} {e : Event}

theorem leaks_step (hs : Represented s.wheel) (hok : Legal s e) (hstep : step s e = some s') :
    (Leaks s.wheel → Leaks s'.wheel) ∧ (DropsNone s e → Leaks s'.wheel → Leaks s.wheel) ∧
      (¬ DropsNone s e → Leaks s'.wheel) := by
  cases e with
  | add timeout addr =>
    obtain ⟨r, h1, hr⟩ := Option.bind_eq_some_iff.mp hstep
    obtain rfl := Option.some.inj hr
    have hiff := leaks_add hs hok h1
    exact ⟨hiff.mpr, fun _ => hiff.mp, fun hnot => absurd trivial hnot⟩
  | del timer =>
    obtain ⟨w', h1, hr⟩ := Option.bind_eq_some_iff.mp hstep
    obtain rfl := Option.some.inj hr
    have hiff := leaks_del hs hok h1
    exact ⟨hiff.mpr, fun _ => hiff.mp, fun hnot => absurd trivial hnot⟩
  | tick =>
    obtain ⟨r, h1, hr⟩ := Option.bind_eq_some_iff.mp hstep
    obtain rfl := Option.some.inj hr
    exact ⟨leaks_tick hs h1, fun hw => leaks_of_tick hs hw h1, fun hw => leaks_of_drop hs hw h1⟩

theorem punctual_step (h : Punctual s) (hok : Legal s e) (hstep : step s e = some s') : Punctual s' := by
  obtain ⟨s'', h1, h2⟩ := h.step hok
  obtain rfl := Option.some.inj (hstep.symm.trans h1)
  exact h2

theorem leaks_iff {es : List Event} {s0 : System} (h0 : Init s0) (hrun : Exec Legal step s0 es s) :
    Leaks s.wheel ↔ ¬ Exec (fun s e => Legal s e ∧ DropsNone s e) step s0 es s := by
  have hp0 := punctual_init h0
  constructor
  · intro hl hkeep
    have hinv := hkeep.invariant (I := fun s => Punctual s ∧ ¬ Leaks s.wheel)
      (fun s e s' hs hok hstep => ⟨punctual_step hs.1 hok.1 hstep,
        fun hl => hs.2 ((leaks_step hs.1.represented hok.1 hstep).2.1 hok.2 hl)⟩)
    refine (hinv ⟨hp0, ?_⟩).2 hl
    rintro ⟨a, ha, -⟩
    rw [h0.1] at ha
    exact ha rfl
  · intro hnot
    have hmark := hrun.keeps_or_marked (P := DropsNone) (I := Punctual)
      (D := fun s => Punctual s ∧ Leaks s.wheel) (fun s e s' hs hok hstep => punctual_step hs hok hstep)
      (fun s e s' hs hok hdrop hstep => ⟨punctual_step hs hok hstep,
        (leaks_step hs.represented hok hstep).2.2 hdrop⟩)
      (fun s e s' hs hok hstep => ⟨punctual_step hs.1 hok hstep,
        (leaks_step hs.1.represented hok hstep).1 hs.2⟩) hp0
    exact (hmark.resolve_left hnot).2

end LinuxServer.Wheel
