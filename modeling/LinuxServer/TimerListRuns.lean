import LinuxServer.Runs
import LinuxServer.TimerListSpec

/-!
# The timer list in use

The public operations of `sort_timer_lst`, called in any order.  Next to the list stand
the number of operations so far, for every timer the operation that added it, and a
record of the callbacks, each with the operation that ran it and the one that added
its timer.
-/

namespace LinuxServer.TimerList
open Linkage SortTimerLst

/-- `add_timer` comes with the address of the new timer.  The caller of `adjust_timer`
has raised the expiry time before. -/
inductive Operation
  | add (timer : ℕ) (expire : ℤ)
  | raise (timer : ℕ) (expire : ℤ)
  | adjust (timer : ℕ)
  | del (timer : ℕ)
  | tick (cur : ℤ)
  deriving DecidableEq, Repr

structure Usage where
  lst : SortTimerLst
  ops : ℕ
  born : ℕ → ℕ
  calls : List (ℕ × ℕ)

/-- `user_data` plays no part here; it is 0. -/
def step (s : Usage) : Operation → Option Usage
  | .add timer expire => do
    let l ← (s.lst.alloc timer expire 0).addTimer (some timer)
    some { s with lst := l, ops := s.ops + 1, born := Function.update s.born timer s.ops }
  | .raise timer expire => do
    let l ← s.lst.write (some timer) fun t => { t with expire := expire }
    some { s with lst := l, ops := s.ops + 1 }
  | .adjust timer => do
    let l ← s.lst.adjustTimer (some timer)
    some { s with lst := l, ops := s.ops + 1 }
  | .del timer => do
    let l ← s.lst.delTimer (some timer)
    some { s with lst := l, ops := s.ops + 1 }
  | .tick cur => do
    let (l, calls) ← s.lst.tick (fun a _ c => c ++ [(s.ops, s.born a)]) cur s.calls
    some { s with lst := l, ops := s.ops + 1, calls := calls }

def Init (s : Usage) : Prop := s.lst = .empty ∧ s.ops = 0 ∧ s.calls = []

/-- New timers are put into memory that is not in use; the others are linked, and their
expiry times are raised. -/
def Legal (s : Usage) : Operation → Prop
  | .add timer _ => s.lst.heap timer = none
  | .raise timer expire => timer ∈ s.lst.timers ∧ expireAt s.lst.heap timer ≤ expire
  | .adjust timer => timer ∈ s.lst.timers
  | .del timer => timer ∈ s.lst.timers
  | .tick _ => True

instance (s : Usage) : (e : Operation) → Decidable (Legal s e)
  | .add _ _ => inferInstanceAs (Decidable (_ = _))
  | .raise _ _ => inferInstanceAs (Decidable (_ ∧ _))
  | .adjust _ => inferInstanceAs (Decidable (_ ∈ _))
  | .del _ => inferInstanceAs (Decidable (_ ∈ _))
  | .tick _ => isTrue trivial

variable {s s' t : Usage} {l l' : SortTimerLst} {a b : ℕ} {xs ys : List ℕ}

/-! ## The schedule

What a sequence of insertions and ticks is to do, read off the sequence itself. -/

/-- Only insertions and ticks. -/
def Plain (s : Usage) : Operation → Prop
  | .add timer _ => s.lst.heap timer = none
  | .tick _ => True
  | _ => False

instance (s : Usage) : (e : Operation) → Decidable (Plain s e)
  | .add _ _ => inferInstanceAs (Decidable (_ = _))
  | .tick _ => isTrue trivial
  | .raise _ _ => isFalse id
  | .adjust _ => isFalse id
  | .del _ => isFalse id

variable {es : List Operation} {e : Operation} {i j : ℕ} {x : ℤ}

/-- Operation `i` added a timer with expiry time `x`, and no later tick came that late. -/
def Waiting (es : List Operation) (i : ℕ) (x : ℤ) : Prop :=
  (∃ timer, es[i]? = some (.add timer x)) ∧ ∀ k c, i < k → es[k]? = some (.tick c) → c < x

/-- Operation `j` is the first tick that the timer added by operation `i` is due at. -/
def Fires (es : List Operation) (j i : ℕ) : Prop :=
  ∃ timer x cur, es[i]? = some (.add timer x) ∧ es[j]? = some (.tick cur) ∧ i < j ∧ x ≤ cur ∧
    ∀ k c, i < k → k < j → es[k]? = some (.tick c) → c < x

/-- The expiry time of the timer added by operation `i`. -/
def expiry (es : List Operation) (i : ℕ) : ℤ :=
  match es[i]? with
  | some (.add _ x) => x
  | _ => 0

/-- The order of expiry, and of insertion among timers that expire together. -/
def Before (es : List Operation) (i i' : ℕ) : Prop :=
  expiry es i < expiry es i' ∨ expiry es i = expiry es i' ∧ i < i'

theorem getElem?_snoc {o : Operation} {k : ℕ} :
    (es ++ [e])[k]? = some o ↔ es[k]? = some o ∨ k = es.length ∧ e = o := by
  rcases Nat.lt_trichotomy k es.length with hk | rfl | hk
  · simp [List.getElem?_append_left hk, hk.ne]
  · simp
  · have h1 : (es ++ [e])[k]? = none := List.getElem?_eq_none (by simp; omega)
    have h2 : es[k]? = none := List.getElem?_eq_none (by omega)
    simp [h1, h2, hk.ne']

theorem lt_of_getElem? {o : Operation} {k : ℕ} (h : es[k]? = some o) : k < es.length :=
  (List.getElem?_eq_some_iff.mp h).1

theorem expiry_eq {timer : ℕ} (h : es[i]? = some (.add timer x)) : expiry es i = x := by
  simp [expiry, h]

theorem Waiting.expiry_eq (h : Waiting es i x) : expiry es i = x := by
  obtain ⟨⟨timer, h⟩, -⟩ := h
  exact TimerList.expiry_eq h

theorem Waiting.lt (h : Waiting es i x) : i < es.length := by
  obtain ⟨⟨timer, h⟩, -⟩ := h
  exact lt_of_getElem? h

theorem expiry_snoc (hi : i < es.length) : expiry (es ++ [e]) i = expiry es i := by
  simp only [expiry, List.getElem?_append_left hi]

theorem waiting_snoc_add {timer : ℕ} {y : ℤ} : Waiting (es ++ [.add timer y]) i x ↔
    Waiting es i x ∨ i = es.length ∧ x = y := by
  constructor
  · rintro ⟨⟨a, ha⟩, hk⟩
    rcases getElem?_snoc.mp ha with ha | ⟨hi, he⟩
    · exact .inl ⟨⟨a, ha⟩, fun k c hik hc => hk k c hik (getElem?_snoc.mpr (.inl hc))⟩
    · cases he
      exact .inr ⟨hi, rfl⟩
  · rintro (⟨⟨a, ha⟩, hk⟩ | ⟨rfl, rfl⟩)
    · refine ⟨⟨a, getElem?_snoc.mpr (.inl ha)⟩, fun k c hik hc => ?_⟩
      rcases getElem?_snoc.mp hc with hc | ⟨-, hc⟩
      · exact hk k c hik hc
      · cases hc
    · refine ⟨⟨timer, getElem?_snoc.mpr (.inr ⟨rfl, rfl⟩)⟩, fun k c hik hc => ?_⟩
      have := lt_of_getElem? hc
      simp at this
      omega

theorem waiting_snoc_tick {c : ℤ} : Waiting (es ++ [.tick c]) i x ↔ Waiting es i x ∧ c < x := by
  constructor
  · rintro ⟨⟨a, ha⟩, hk⟩
    rcases getElem?_snoc.mp ha with ha | ⟨-, ha⟩
    · refine ⟨⟨⟨a, ha⟩, fun k d hik hd => hk k d hik (getElem?_snoc.mpr (.inl hd))⟩, ?_⟩
      exact hk es.length c (lt_of_getElem? ha) (getElem?_snoc.mpr (.inr ⟨rfl, rfl⟩))
    · cases ha
  · rintro ⟨⟨⟨a, ha⟩, hk⟩, hlt⟩
    refine ⟨⟨a, getElem?_snoc.mpr (.inl ha)⟩, fun k d hik hd => ?_⟩
    rcases getElem?_snoc.mp hd with hd | ⟨-, hd⟩
    · exact hk k d hik hd
    · cases hd
      exact hlt

/-- One more operation adds the callbacks of the timers that were waiting for it. -/
theorem fires_snoc : Fires (es ++ [e]) j i ↔
    Fires es j i ∨ j = es.length ∧ ∃ x cur, e = .tick cur ∧ Waiting es i x ∧ x ≤ cur := by
  constructor
  · rintro ⟨a, x, cur, ha, hj, hij, hx, hk⟩
    rcases getElem?_snoc.mp ha with ha | ⟨rfl, -⟩
    · have hk' : ∀ k c, i < k → k < j → es[k]? = some (.tick c) → c < x :=
        fun k c h1 h2 h => hk k c h1 h2 (getElem?_snoc.mpr (.inl h))
      rcases getElem?_snoc.mp hj with hj | ⟨rfl, he⟩
      · exact .inl ⟨a, x, cur, ha, hj, hij, hx, hk'⟩
      · exact .inr ⟨rfl, x, cur, he, ⟨⟨a, ha⟩, fun k c h h' => hk' k c h (lt_of_getElem? h') h'⟩, hx⟩
    · have := lt_of_getElem? hj
      simp at this
      omega
  · rintro (⟨a, x, cur, ha, hj, hij, hx, hk⟩ | ⟨rfl, x, cur, rfl, ⟨⟨a, ha⟩, hk⟩, hx⟩)
    · refine ⟨a, x, cur, getElem?_snoc.mpr (.inl ha), getElem?_snoc.mpr (.inl hj), hij, hx,
        fun k c h1 h2 h => ?_⟩
      rcases getElem?_snoc.mp h with h | ⟨rfl, -⟩
      · exact hk k c h1 h2 h
      · have := lt_of_getElem? hj
        omega
    · refine ⟨a, x, cur, getElem?_snoc.mpr (.inl ha), getElem?_snoc.mpr (.inr ⟨rfl, rfl⟩),
        lt_of_getElem? ha, hx, fun k c h1 h2 h => ?_⟩
      rcases getElem?_snoc.mp h with h | ⟨rfl, -⟩
      · exact hk k c h1 h
      · omega

/-- A timer has one first tick that it is due at. -/
theorem Fires.unique {j' : ℕ} (h : Fires es j i) (h' : Fires es j' i) : j = j' := by
  obtain ⟨a, x, cur, ha, hj, hij, hx, hk⟩ := h
  obtain ⟨a', x', cur', ha', hj', hij', hx', hk'⟩ := h'
  obtain ⟨rfl, rfl⟩ : a = a' ∧ x = x' := by simpa using Option.some.inj (ha.symm.trans ha')
  rcases Nat.lt_trichotomy j j' with hlt | rfl | hlt
  · have := hk' j cur hij hlt hj
    omega
  · rfl
  · have := hk j' cur' hij' hlt hj'
    omega

/-- The list holds the timers that wait, in their order, and the callbacks made are those
that had to be made. -/
structure Scheduled (es : List Operation) (s : Usage) (xs : List ℕ) : Prop where
  ops : s.ops = es.length
  holds : Holds weakBack s.lst xs
  waiting : ∀ a ∈ xs, Waiting es (s.born a) (expireAt s.lst.heap a)
  complete : ∀ i x, Waiting es i x → ∃ a ∈ xs, s.born a = i
  sorted : xs.Pairwise fun a b => Before es (s.born a) (s.born b)
  calls : ∀ j i, (j, i) ∈ s.calls ↔ Fires es j i
  inOrder : s.calls.Pairwise fun p q => p.1 < q.1 ∨ p.1 = q.1 ∧ Before es p.2 q.2

theorem scheduled_init (h : Init s) : Scheduled [] s [] := by
  obtain ⟨hl, hops, hcalls⟩ := h
  refine ⟨hops, hl ▸ holds_empty, by simp, fun i x hw => ?_, .nil, fun j i => ?_, hcalls ▸ .nil⟩
  · have := hw.lt
    simp at this
  · rw [hcalls]
    constructor
    · intro h
      cases h
    · rintro ⟨a, x, cur, ha, -⟩
      simp at ha

/-- Among the timers in the list the order is by expiry time. -/
theorem Scheduled.ascending (h : Scheduled es s xs) :
    xs.Pairwise fun a b => expireAt s.lst.heap a ≤ expireAt s.lst.heap b := by
  refine h.sorted.imp_of_mem fun {a b} ha hb hab => ?_
  have hea := (h.waiting a ha).expiry_eq
  have heb := (h.waiting b hb).expiry_eq
  rcases hab with hlt | ⟨heq, -⟩ <;> omega

theorem Before.snoc (h : Before es i j) (hi : i < es.length) (hj : j < es.length) :
    Before (es ++ [e]) i j := by
  simpa only [Before, expiry_snoc hi, expiry_snoc hj] using h

/-- What a run has done so far keeps its order. -/
theorem Scheduled.inOrder_snoc (h : Scheduled es s xs) (e : Operation) :
    s.calls.Pairwise fun p q => p.1 < q.1 ∨ p.1 = q.1 ∧ Before (es ++ [e]) p.2 q.2 := by
  refine h.inOrder.imp_of_mem fun {p q} hp hq hpq => hpq.imp_right (And.imp_right fun hb => ?_)
  obtain ⟨_, _, _, hgp, -⟩ := (h.calls p.1 p.2).mp hp
  obtain ⟨_, _, _, hgq, -⟩ := (h.calls q.1 q.2).mp hq
  exact hb.snoc (lt_of_getElem? hgp) (lt_of_getElem? hgq)

/-- Insertion keeps the order: the new timer comes last among those it expires with. -/
theorem insertBy_before {f : ℕ → ℤ} {born : ℕ → ℕ} (hf : ∀ b ∈ a :: xs, expiry es (born b) = f b)
    (h : xs.Pairwise fun b c => Before es (born b) (born c)) (hborn : ∀ b ∈ xs, born b < born a) :
    (insertBy f a xs).Pairwise fun b c => Before es (born b) (born c) := by
  induction xs with
  | nil => simp
  | cons b xs ih =>
    obtain ⟨hb, hxs⟩ := List.pairwise_cons.mp h
    have hfa := hf a (by simp)
    have hfb := hf b (by simp)
    rw [insertBy_cons]
    split
    next hlt =>
      refine List.pairwise_cons.mpr ⟨fun c hc => ?_, h⟩
      rcases List.mem_cons.mp hc with rfl | hc
      · exact .inl (by omega)
      · rcases hb c hc with hbc | ⟨hbc, -⟩ <;> exact .inl (by omega)
    next hge =>
      refine List.pairwise_cons.mpr ⟨fun c hc => ?_, ih (fun c hc => hf c ?_) hxs
        fun c hc => hborn c (by simp [hc])⟩
      · rcases mem_insertBy.mp hc with rfl | hc
        · rcases Int.lt_or_eq_of_le (Int.not_lt.mp hge) with hlt | heq
          · exact .inl (by omega)
          · exact .inr ⟨by omega, hborn b (by simp)⟩
        · exact hb c hc
      · rcases List.mem_cons.mp hc with rfl | hc <;> simp [*]

theorem Scheduled.add (h : Scheduled es s xs) (ha : s.lst.heap a = none)
    (hstep : step s (.add a x) = some s') : ∃ ys, Scheduled (es ++ [.add a x]) s' ys := by
  obtain ⟨l', h1, hax, h3, h4⟩ := h.holds.addNew weakBack_self ha x 0
  obtain rfl : { s with lst := l', ops := s.ops + 1, born := Function.update s.born a s.ops } = s' := by
    simpa [step, h1] using hstep
  have hexp : ∀ b ∈ xs, expireAt l'.heap b = expireAt s.lst.heap b := by
    intro b hb
    have hba : b ≠ a := by rintro rfl; exact hax hb
    rw [h3.expireAt_eq]
    simp [expireAt, SortTimerLst.alloc, hba]
  have hexpa : expireAt l'.heap a = x := by
    rw [h3.expireAt_eq]
    simp [expireAt, SortTimerLst.alloc]
  have hborn : ∀ b ∈ xs, Function.update s.born a s.ops b = s.born b := by
    intro b hb
    exact Function.update_of_ne (by rintro rfl; exact hax hb) _ _
  have hwait : ∀ b ∈ a :: xs,
      Waiting (es ++ [.add a x]) (Function.update s.born a s.ops b) (expireAt l'.heap b) := by
    intro b hb
    rw [waiting_snoc_add]
    rcases List.mem_cons.mp hb with rfl | hb
    · exact .inr ⟨by simp [h.ops], hexpa⟩
    · rw [hborn b hb, hexp b hb]
      exact .inl (h.waiting b hb)
  refine ⟨_, by simp [h.ops], h4, fun b hb => hwait b (by simpa using hb), fun i y hw => ?_, ?_,
    fun j i => ?_, h.inOrder_snoc _⟩
  · rcases waiting_snoc_add.mp hw with hw | ⟨rfl, -⟩
    · obtain ⟨b, hb, rfl⟩ := h.complete i y hw
      exact ⟨b, by simp [hb], hborn b hb⟩
    · exact ⟨a, by simp, by simp [h.ops]⟩
  · refine insertBy_before (fun b hb => (hwait b hb).expiry_eq) ?_ fun b hb => ?_
    · refine h.sorted.imp_of_mem fun {b c} hb hc hbc => ?_
      simpa only [hborn b hb, hborn c hc] using hbc.snoc (h.waiting b hb).lt (h.waiting c hc).lt
    · simp only [hborn b hb, Function.update_self]
      simpa only [h.ops] using (h.waiting b hb).lt
  · rw [fires_snoc, ← h.calls]
    simp

/-- A tick runs the callbacks of the timers that are due, in their order. -/
theorem Scheduled.tick {cur : ℤ} (h : Scheduled es s xs) :
    ∃ s' ys, step s (.tick cur) = some s' ∧ Scheduled (es ++ [.tick cur]) s' ys := by
  obtain ⟨l', h1, h2, -, -, h4⟩ := tick_spec (fun a _ c => c ++ [(s.ops, s.born a)]) cur
    (w := s.calls) _ _ (weakBack_self none) h.holds fun _ => h.holds.map_data
  rw [List.foldl_append_eq_append, ← List.flatMap_def, ← List.map_eq_flatMap] at h1
  have hdue : ∀ a, a ∈ xs.takeWhile (expireAt s.lst.heap · ≤ cur) ↔ a ∈ xs ∧ expireAt s.lst.heap a ≤ cur :=
    fun a => mem_takeWhile_of_sorted h.ascending
  have hsub := List.dropWhile_sublist (l := xs) fun a => decide (expireAt s.lst.heap a ≤ cur)
  have hkept : ∀ a ∈ xs, cur < expireAt s.lst.heap a → a ∈ xs.dropWhile (expireAt s.lst.heap · ≤ cur) := by
    intro a ha hlt
    refine (mem_dropWhile_iff h.holds.nodup).mpr ⟨ha, fun hf => ?_⟩
    have := ((hdue a).mp hf).2
    omega
  refine ⟨{ s with lst := l', ops := s.ops + 1, calls := _ }, _, by simp only [step, h1]; rfl,
    by simp [h.ops], h2, fun a ha => ?_, fun i x hw => ?_, ?_, fun j i => ?_, ?_⟩
  · have hlt := lt_of_mem_dropWhile h.ascending ha
    have hexp : expireAt l'.heap a = expireAt s.lst.heap a := by
      have hd := h4 a
      rw [if_neg fun ht => by have := ((hdue a).mp ht).2; omega] at hd
      exact expireAt_congr hd
    rw [waiting_snoc_tick, hexp]
    exact ⟨h.waiting a (hsub.subset ha), hlt⟩
  · obtain ⟨hw, hlt⟩ := waiting_snoc_tick.mp hw
    obtain ⟨a, ha, rfl⟩ := h.complete i x hw
    have hx := (h.waiting a ha).expiry_eq.symm.trans hw.expiry_eq
    exact ⟨a, hkept a ha (hx ▸ hlt), rfl⟩
  · refine (h.sorted.sublist hsub).imp_of_mem fun {a b} ha hb hab => ?_
    exact hab.snoc (h.waiting a (hsub.subset ha)).lt (h.waiting b (hsub.subset hb)).lt
  · rw [fires_snoc, ← h.calls, List.mem_append, h.ops]
    refine or_congr_right ⟨fun hm => ?_, ?_⟩
    · obtain ⟨a, ha, heq⟩ := List.mem_map.mp hm
      obtain ⟨rfl, rfl⟩ : es.length = j ∧ s.born a = i := by simpa [Prod.ext_iff] using heq
      obtain ⟨ha, hle⟩ := (hdue a).mp ha
      exact ⟨rfl, _, cur, rfl, h.waiting a ha, hle⟩
    · rintro ⟨rfl, x, c, hc, hw, hle⟩
      cases hc
      obtain ⟨a, ha, rfl⟩ := h.complete i x hw
      have hx := (h.waiting a ha).expiry_eq.symm.trans hw.expiry_eq
      exact List.mem_map.mpr ⟨a, (hdue a).mpr ⟨ha, hx ▸ hle⟩, rfl⟩
  · refine List.pairwise_append.mpr ⟨h.inOrder_snoc _, ?_, fun p hp q hq => ?_⟩
    · rw [List.pairwise_map]
      refine (h.sorted.sublist (List.takeWhile_sublist _)).imp_of_mem fun {a b} ha hb hab => ?_
      obtain ⟨ha, -⟩ := (hdue a).mp ha
      obtain ⟨hb, -⟩ := (hdue b).mp hb
      exact .inr ⟨rfl, hab.snoc (h.waiting a ha).lt (h.waiting b hb).lt⟩
    · -- the callbacks made before belong to earlier operations
      obtain ⟨_, _, _, -, hj, -⟩ := (h.calls p.1 p.2).mp hp
      obtain ⟨a, -, rfl⟩ := List.mem_map.mp hq
      exact .inl (by simpa only [h.ops] using lt_of_getElem? hj)

theorem Scheduled.step (h : Scheduled es s xs) (he : Plain s e) :
    ∃ s' ys, TimerList.step s e = some s' ∧ Scheduled (es ++ [e]) s' ys := by
  cases e with
  | add a x =>
    obtain ⟨l', h1, -⟩ := h.holds.addNew weakBack_self he x 0
    obtain ⟨s', hs'⟩ : ∃ s', TimerList.step s (.add a x) = some s' :=
      ⟨_, by simp only [TimerList.step, h1]; rfl⟩
    obtain ⟨ys, hys⟩ := h.add he hs'
    exact ⟨s', ys, hs', hys⟩
  | tick cur => exact h.tick
  | raise a x => exact he.elim
  | adjust a => exact he.elim
  | del a => exact he.elim

/-- No timer has two callbacks. -/
theorem Scheduled.calls_nodup (h : Scheduled es s xs) : (s.calls.map Prod.snd).Nodup := by
  rw [List.Nodup, List.pairwise_map]
  refine h.inOrder.imp_of_mem fun {p q} hp hq hpq heq => ?_
  have hj := ((h.calls p.1 p.2).mp hp).unique (heq ▸ (h.calls q.1 q.2).mp hq)
  rcases hpq with hlt | ⟨-, hlt | ⟨-, hlt⟩⟩
  · omega
  · rw [heq] at hlt
    omega
  · omega

/-- Insertions and ticks in any order and at any times: every operation completes, a
timer's callback runs in the first later tick that it is due at and in no other, and the
callbacks of one tick run by expiry time and then by age. -/
theorem called_on_schedule {s0 : Usage} (h0 : Init s0) (hrun : Exec Plain step s0 es s) :
    (∀ j i, (j, i) ∈ s.calls ↔ Fires es j i) ∧ (s.calls.map Prod.snd).Nodup ∧
      (s.calls.Pairwise fun p q => p.1 < q.1 ∨ p.1 = q.1 ∧ Before es p.2 q.2) ∧
      ∀ e, Plain s e → (step s e).isSome := by
  have hinv : ∃ xs, Scheduled es s xs := by
    refine hrun.history (I := fun es s => ∃ xs, Scheduled es s xs) (fun es s e s' => ?_)
      ⟨_, scheduled_init h0⟩
    rintro ⟨xs, h⟩ he hstep
    obtain ⟨t, ys, ht, h'⟩ := h.step he
    obtain rfl := Option.some.inj (hstep.symm.trans ht)
    exact ⟨ys, h'⟩
  obtain ⟨xs, h⟩ := hinv
  refine ⟨h.calls, h.calls_nodup, h.inOrder, fun e he => ?_⟩
  obtain ⟨t, -, ht, -⟩ := h.step he
  simp [ht]

def start : Usage := ⟨.empty, 0, fun _ => 0, []⟩

/-- Two timers that expire together, one before them, and a tick that comes too early. -/
def threeTimers : List Operation := [.add 0 5, .add 1 5, .add 2 3, .tick 2, .tick 7, .add 0 1, .tick 0]

theorem called_on_schedule_three : ∃ s, Exec Plain step start threeTimers s ∧
    (∀ j i, (j, i) ∈ s.calls ↔ Fires threeTimers j i) ∧ s.calls = [(4, 2), (4, 0), (4, 1)] := by
  obtain ⟨s, hs, hc⟩ : ∃ s, play Plain step start threeTimers = some s ∧
      s.calls = [(4, 2), (4, 0), (4, 1)] := ⟨_, rfl, by decide⟩
  have hrun := exec_of_play hs
  exact ⟨s, hrun, (called_on_schedule ⟨rfl, rfl, rfl⟩ hrun).1, hc⟩

/-! ## The tail

`del_timer` clears `tail` with the last timer; `tick` does not. -/

/-- `tail` is `NULL` together with `head`, and otherwise the last timer reached from it. -/
def SortTimerLst.TailRight (l : SortTimerLst) : Prop :=
  (l.tail = none ↔ l.head = none) ∧ l.tail = l.timers.getLast? ∧
    ∀ a, l.tail = some a → ∃ t, l.heap a = some t ∧ t.next = none

/-- If there are timers, `tick` is called when one of them is not due. -/
def LeavesOne (s : Usage) : Operation → Prop
  | .tick cur => s.lst.timers = [] ∨ ∃ a ∈ s.lst.timers, cur < expireAt s.lst.heap a
  | _ => True

instance (s : Usage) : (e : Operation) → Decidable (LeavesOne s e)
  | .tick _ => inferInstanceAs (Decidable (_ ∨ _))
  | .add _ _ => isTrue trivial
  | .raise _ _ => isTrue trivial
  | .adjust _ => isTrue trivial
  | .del _ => isTrue trivial

theorem lastPtr_none : lastPtr none xs = xs.getLast? := by
  rcases List.eq_nil_or_concat xs with rfl | ⟨ys, a, rfl⟩
  · rfl
  · simp

theorem SortTimerLst.Holds.tailRight (h : Holds weakBack l xs) (hnil : xs = [] → l.tail = none) :
    l.TailRight := by
  have hlast : l.tail = xs.getLast? := by
    rcases eq_or_ne xs [] with rfl | hne
    · exact hnil rfl
    · rw [h.tail hne, lastPtr_none]
  refine ⟨?_, by rw [h.timers_eq, hlast], fun a ha => ?_⟩
  · rw [hlast, h.head_eq]
    cases xs with
    | nil => simp
    | cons b xs => simp
  · obtain ⟨ys, rfl⟩ := List.getLast?_eq_some_iff.mp (hlast ▸ ha)
    obtain ⟨-, -, -, t, ht, -, hn⟩ := seg_append.mp h.seg
    exact ⟨t, ht, hn⟩

theorem SortTimerLst.Holds.not_tailRight (h : Holds weakBack l []) (hl : l.tail ≠ none) : ¬ l.TailRight :=
  fun ht => hl (ht.1.mpr h.head_eq)

theorem delTimer_tail (h : Holds weakBack l xs) (ha : a ∈ xs) (hdel : l.delTimer (some a) = some l')
    (hnil : xs.erase a = []) : l'.tail = none := by
  obtain rfl : xs = [a] := by
    have hp := List.perm_cons_erase ha
    rwa [hnil, List.perm_singleton] at hp
  have hhead : l.head = some a := h.head_eq
  have htail : l.tail = some a := h.tail (by simp)
  obtain ⟨t, ht⟩ := h.seg.mem ha
  obtain rfl : _ = l' := by simpa [delTimer, hhead, htail, free_of_some ht] using hdel
  rfl

/-- What each operation does to the end of the list. -/
theorem step_tail (h : Holds weakBack s.lst xs) (hnil : xs = [] → s.lst.tail = none) (he : Legal s e)
    (hstep : step s e = some s') : ∃ ys, Holds weakBack s'.lst ys ∧
      (LeavesOne s e → ys = [] → s'.lst.tail = none) ∧ (¬ LeavesOne s e → ys = [] ∧ s'.lst.tail ≠ none) := by
  cases e with
  | add a x =>
    obtain ⟨l', h1, -, -, h4⟩ := h.addNew weakBack_self he x 0
    obtain rfl : _ = s' := by simpa [step, h1] using hstep
    refine ⟨_, h4, fun _ hys => ?_, fun hn => absurd trivial hn⟩
    have ha : a ∈ insertBy (expireAt l'.heap) a xs := mem_insertBy.mpr (.inl rfl)
    simp [hys] at ha
  | raise a x =>
    obtain ⟨ha, -⟩ := he
    obtain ⟨t, ht⟩ := h.seg.mem (h.timers_eq ▸ ha)
    obtain rfl : _ = s' := by simpa [step, SortTimerLst.write, ht] using hstep
    exact ⟨xs, h.setExpire ht x, fun _ => hnil, fun hn => absurd trivial hn⟩
  | adjust a =>
    have ha : a ∈ xs := h.timers_eq ▸ he
    obtain ⟨l', ys, h1, -, -, h4, hp⟩ := adjustTimer_spec weakBack_self h ha
    obtain rfl : _ = s' := by simpa [step, h1] using hstep
    refine ⟨ys, h4, fun _ hys => ?_, fun hn => absurd trivial hn⟩
    have := hp.mem_iff.mpr ha
    simp [hys] at this
  | del a =>
    have ha : a ∈ xs := h.timers_eq ▸ he
    obtain ⟨l', h1, hs⟩ := Option.bind_eq_some_iff.mp hstep
    obtain rfl := Option.some.inj hs
    exact ⟨_, (delTimer_spec h ha h1).2.2, fun _ => delTimer_tail h ha h1, fun hn => absurd trivial hn⟩
  | tick cur =>
    obtain ⟨l', h1, h2, h3, -⟩ := tick_spec (fun a _ c => c ++ [(s.ops, s.born a)]) cur (w := s.calls)
      _ _ (weakBack_self none) h fun _ => h.map_data
    obtain rfl : _ = s' := by simpa [step, h1] using hstep
    refine ⟨_, h2, fun hl hys => ?_, fun hn => ?_⟩
    · rcases hl with hemp | ⟨a, ha, hlt⟩
      · exact h3.trans (hnil (h.timers_eq ▸ hemp))
      · have := List.dropWhile_eq_nil_iff.mp hys a (h.timers_eq ▸ ha)
        simp at this
        omega
    · simp only [LeavesOne, h.timers_eq, not_or, not_exists, not_and, not_lt] at hn
      refine ⟨List.dropWhile_eq_nil_iff.mpr fun a ha => by simpa using hn.2 a ha, ?_⟩
      obtain ⟨b, zs, rfl⟩ := List.exists_cons_of_ne_nil hn.1
      obtain ⟨d, -, hd⟩ := lastPtr_cons_mem none b zs
      simp [h3, h.tail hn.1, hd]

/-- As long as no `tick` empties the list, `tail` is right, and the first one that does
leaves it wrong. -/
theorem tail_right (h : Reach Init (fun s e => Legal s e ∧ LeavesOne s e) step s) :
    s.lst.TailRight ∧
      ∀ e s', Legal s e → step s e = some s' → (s'.lst.TailRight ↔ LeavesOne s e) := by
  have hinv : ∃ xs, Holds weakBack s.lst xs ∧ (xs = [] → s.lst.tail = none) := by
    refine h.invariant (I := fun s => ∃ xs, Holds weakBack s.lst xs ∧ (xs = [] → s.lst.tail = none))
      (fun s hs => ⟨[], hs.1 ▸ holds_empty, fun _ => hs.1 ▸ rfl⟩) fun s e s' => ?_
    rintro ⟨xs, h, hnil⟩ ⟨hl, hone⟩ hstep
    obtain ⟨ys, hys, htail, -⟩ := step_tail h hnil hl hstep
    exact ⟨ys, hys, htail hone⟩
  obtain ⟨xs, hs, hnil⟩ := hinv
  refine ⟨hs.tailRight hnil, fun e s' hl hstep => ?_⟩
  obtain ⟨ys, hys, hright, hwrong⟩ := step_tail hs hnil hl hstep
  refine ⟨fun ht => ?_, fun hone => hys.tailRight (hright hone)⟩
  by_contra hone
  obtain ⟨rfl, hne⟩ := hwrong hone
  exact hys.not_tailRight hne ht

/-- The third timer is the tail, and stays so while the second is raised in its place and the
first leaves. -/
theorem tail_right_three : ∃ s : Usage, s.lst.TailRight ∧ s.lst.tail = some 2 ∧ s.lst.timers = [1, 2] := by
  obtain ⟨s, hs, htl⟩ : ∃ s : Usage, play (fun s e => Legal s e ∧ LeavesOne s e) step start
      [.add 0 1, .add 1 5, .add 2 7, .raise 1 6, .adjust 1, .tick 2] = some s ∧
      s.lst.tail = some 2 ∧ s.lst.timers = [1, 2] := ⟨_, rfl, by decide⟩
  exact ⟨s, (tail_right (reach_of_play ⟨rfl, rfl, rfl⟩ hs)).1, htl⟩

/-- The tick that fires the last timer leaves `tail` pointing to it. -/
theorem tail_wrong : ∃ s, Reach Init Legal step s ∧ s.lst.head = none ∧ s.lst.tail = some 0 ∧
    s.lst.heap 0 = none ∧ ¬ s.lst.TailRight := by
  obtain ⟨s, hs, hh, htl, hf⟩ : ∃ s : Usage, play Legal step start [.add 0 5, .tick 5] = some s ∧
      s.lst.head = none ∧ s.lst.tail = some 0 ∧ s.lst.heap 0 = none := ⟨_, rfl, by decide⟩
  refine ⟨s, reach_of_play ⟨rfl, rfl, rfl⟩ hs, hh, htl, hf, fun ht => ?_⟩
  have := ht.1.mpr hh
  simp [htl] at this

end LinuxServer.TimerList
