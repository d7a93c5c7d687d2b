import LinuxServer.IdleServerOwnership

namespace LinuxServer.IdleServer
open TimerList TimerList.SortTimerLst

/-- Received data leave the raised timer where it is, or find it at the head of the
list.  Otherwise the assignment in `adjust_timer` moves a timer it was not asked to. -/
def AdjustsItsOwn (s : Server) : Event → Prop
  | .recv sockfd .data now =>
    ∀ t ∈ s.timerLst.deref (s.users sockfd).timer,
      s.timerLst.head = (s.users sockfd).timer ∨ t.next = none ∨
        (s.timerLst.deref t.next).any (fun u => decide (now + 3 * timeslot < u.expire)) = true
  | _ => True

instance (s : Server) : (e : Event) → Decidable (AdjustsItsOwn s e)
  | .recv _ .data _ => inferInstanceAs (Decidable (∀ t ∈ _, _ ∨ _))
  | .recv _ .eof _ => isTrue trivial
  | .recv _ .again _ => isTrue trivial
  | .recv _ .error _ => isTrue trivial
  | .accept _ _ _ => isTrue trivial
  | .timerHandler _ => isTrue trivial

/-- The timers `xs` are in ascending order. -/
def Ascending (h : ℕ → Option UtilTimer) (xs : List ℕ) : Prop :=
  xs.Pairwise fun a b => expireAt h a ≤ expireAt h b

theorem Ascending.congr {h h' : ℕ → Option UtilTimer} {xs : List ℕ} (hs : Ascending h xs)
    (heq : ∀ a ∈ xs, expireAt h' a = expireAt h a) : Ascending h' xs :=
  List.Pairwise.imp_of_mem (fun ha hb hle => by rwa [heq _ ha, heq _ hb]) hs

/-- A raised timer may stay in front of timers that expire later still. -/
theorem Ascending.raise {h h' : ℕ → Option UtilTimer} {pre post : List ℕ} {a : ℕ}
    (hs : Ascending h (pre ++ a :: post)) (heq : ∀ b ∈ pre ++ post, expireAt h' b = expireAt h b)
    (hup : expireAt h a ≤ expireAt h' a) (hpost : ∀ b ∈ post, expireAt h' a ≤ expireAt h b) :
    Ascending h' (pre ++ a :: post) := by
  obtain ⟨h1, h2, h3⟩ := List.pairwise_append.mp hs
  obtain ⟨-, h4⟩ := List.pairwise_cons.mp h2
  have hpre : ∀ b ∈ pre, expireAt h' b = expireAt h b := fun b hb => heq b (by simp [hb])
  have hpo : ∀ b ∈ post, expireAt h' b = expireAt h b := fun b hb => heq b (by simp [hb])
  refine List.pairwise_append.mpr ⟨Ascending.congr h1 hpre, List.pairwise_cons.mpr ⟨fun b hb => ?_,
    Ascending.congr h4 hpo⟩, fun b hb c hc => ?_⟩
  · rw [hpo b hb]
    exact hpost b hb
  · rw [hpre b hb]
    rcases List.mem_cons.mp hc with rfl | hc'
    · exact (h3 b hb c (by simp)).trans hup
    · rw [hpo c hc']
      exact h3 b hb c hc

/-- A raised head goes to its place behind a timer that expires no later. -/
theorem Ascending.raise_head {h h' : ℕ → Option UtilTimer} {post : List ℕ} {a b : ℕ}
    (hs : Ascending h (b :: post)) (heq : ∀ c ∈ b :: post, expireAt h' c = expireAt h c)
    (hle : expireAt h' b ≤ expireAt h' a) : Ascending h' (b :: insertBy (expireAt h') a post) := by
  obtain ⟨h1, h2⟩ := List.pairwise_cons.mp (hs.congr heq)
  refine List.pairwise_cons.mpr ⟨fun c hc => ?_, insertBy_sorted a h2⟩
  rcases mem_insertBy.mp hc with rfl | hc
  · exact hle
  · exact h1 c hc

variable {s s' : Server} {xs : List ℕ} {connfd sockfd cur : ℤ} {addr : ℕ}

theorem expireAt_raised (l : SortTimerLst) (a : ℕ) (t : UtilTimer) (b : ℕ) :
    expireAt (raised l a t cur).heap b = if b = a then cur + 3 * timeslot else expireAt l.heap b := by
  by_cases hba : b = a <;> simp [expireAt, raised, hba]

/-- As long as `adjust_timer` moves the timer it is called with, it re-sorts the list. -/
theorem Tidy.recvData_ascending (h : Tidy s xs) (hs : Ascending s.timerLst.heap xs)
    (hopen : s.conns sockfd ≠ none) (hclock : s.clock = cur)
    (hown : AdjustsItsOwn s (.recv sockfd .data cur))
    (hstep : s.clientData sockfd cur = some s') :
    ∃ ys, Tidy s' ys ∧ Ascending s'.timerLst.heap ys := by
  obtain ⟨a, t, ys, ha, htimer, ht, hle, hadj, -, hys, htidy⟩ := h.recvData hopen hclock hstep
  have hr : Holds weakBack (raised s.timerLst a t cur) xs := holds_raised h.holds ht
  have hra : (raised s.timerLst a t cur).heap a = some { t with expire := cur + 3 * timeslot } := by
    simp [raised]
  obtain ⟨pre, post, rfl, hn⟩ := h.holds.split ha ht
  obtain ⟨hnd1, hnd2, hdis⟩ := List.nodup_append.mp h.holds.nodup
  have hapost : a ∉ post := (List.nodup_cons.mp hnd2).1
  have hapre : a ∉ pre := fun hp => hdis a hp a (by simp) rfl
  have hother : ∀ b ∈ pre ++ post, expireAt (raised s.timerLst a t cur).heap b =
      expireAt s.timerLst.heap b := by
    intro b hb
    rw [expireAt_raised, if_neg]
    rintro rfl
    exact (List.mem_append.mp hb).elim hapre hapost
  have hself : expireAt (raised s.timerLst a t cur).heap a = cur + 3 * timeslot := by
    rw [expireAt_raised, if_pos rfl]
  have hasc2 : post.Pairwise fun a b => expireAt s.timerLst.heap a ≤ expireAt s.timerLst.heap b :=
    (List.pairwise_cons.mp (List.pairwise_append.mp hs).2.1).2
  -- nothing moves
  have hstays : (∀ b ∈ post, cur + 3 * timeslot ≤ expireAt s.timerLst.heap b) →
      (raised s.timerLst a t cur).adjustTimer (some a) = some (raised s.timerLst a t cur) →
      ∃ ys, Tidy s' ys ∧ Ascending s'.timerLst.heap ys := by
    intro hpost hst
    have hl : s'.timerLst = raised s.timerLst a t cur := Option.some.inj (hadj.symm.trans hst)
    refine ⟨ys, htidy, ?_⟩
    obtain rfl : ys = pre ++ a :: post := (hl ▸ hys).seg.unique rfl hr.seg
    rw [hl]
    refine hs.raise hother ?_ fun b hb => ?_
    · rw [hself, expireAt_of_some ht]
      exact hle
    · rw [hself]
      exact hpost b hb
  cases post with
  | nil => exact hstays (by simp) (adjustTimer_stays hra (.inl hn))
  | cons b post =>
    have hba : b ≠ a := by rintro rfl; simp at hapost
    obtain ⟨u, hu⟩ := h.holds.seg.mem (a := b) (by simp)
    have hru : (raised s.timerLst a t cur).heap b = some u := by simp [raised, hba, hu]
    by_cases hlt : cur + 3 * timeslot < u.expire
    · refine hstays (fun c hc => ?_) (adjustTimer_stays hra (.inr ⟨b, u, hn, hru, hlt⟩))
      have hub := expireAt_of_some hu
      rcases List.mem_cons.mp hc with rfl | hc
      · omega
      · have := (List.pairwise_cons.mp hasc2).1 c hc
        omega
    · -- the head moves, and it is `a`
      have hhead : s.timerLst.head = some a := by
        simp only [AdjustsItsOwn, htimer, deref_some] at hown
        rcases hown t ht with hh | hn' | hlt'
        · exact hh
        · simp [hn'] at hn
        · simp [hn, hu, hlt] at hlt'
      obtain rfl : pre = [] := by
        cases pre with
        | nil => rfl
        | cons c pre =>
          have hc : s.timerLst.head = some c := h.holds.head_eq
          obtain rfl : c = a := Option.some.inj (hc.symm.trans hhead)
          simp at hapre
      obtain ⟨l', h1, -, h3, h4⟩ := adjustTimer_moves weakBack_self post hr hra hn hru hlt
      have hl : s'.timerLst = l' := Option.some.inj (hadj.symm.trans h1)
      refine ⟨ys, htidy, ?_⟩
      obtain rfl : ys = b :: insertBy (expireAt (raised s.timerLst a t cur).heap) a post :=
        (hl ▸ hys).seg.unique rfl h4.seg
      have hmoved : Ascending (raised s.timerLst a t cur).heap
          (b :: insertBy (expireAt (raised s.timerLst a t cur).heap) a post) := by
        apply Ascending.raise_head hasc2 hother
        rw [hself, hother b (by simp), expireAt_of_some hu]
        exact not_lt.mp hlt
      rw [hl]
      exact hmoved.congr fun c _ => congrFun h3.expireAt_eq c

/-- What a step keeps as long as no step adjusts a timer that is not its own. -/
theorem ascending_step {e : Event} (h : ∃ xs, Tidy s xs ∧ Ascending s.timerLst.heap xs)
    (hok : Legal s e) (hown : AdjustsItsOwn s e) (hstep : step s e = some s') :
    ∃ xs, Tidy s' xs ∧ Ascending s'.timerLst.heap xs := by
  obtain ⟨xs, h, hs⟩ := h
  cases e with
  | accept connfd addr now =>
    obtain ⟨h1, h2⟩ := h.accept hok hstep
    exact ⟨_, h1, insertBy_sorted addr (hs.congr h2)⟩
  | recv sockfd ret now =>
    obtain ⟨hopen, hclock⟩ := hok
    have hw := h.wait hclock
    cases ret with
    | data => exact hw.recvData_ascending hs hopen rfl hown hstep
    | again =>
      obtain rfl := Option.some.inj hstep
      exact ⟨xs, hw, hs⟩
    | eof | error =>
      obtain ⟨a, -, h1, h2⟩ := hw.closeClient hopen hstep
      refine ⟨_, h1, Ascending.congr (List.Pairwise.sublist List.erase_sublist hs) fun b hb => ?_⟩
      have hba : b ≠ a := ((h.holds.nodup.mem_erase_iff).mp hb).1
      rw [h2.expireAt_eq]
      simp [expireAt, hba]
  | timerHandler now =>
    obtain ⟨h1, h2, -⟩ := h.timerHandler hok hstep
    exact ⟨_, h1, Ascending.congr (List.Pairwise.sublist (List.dropWhile_sublist _) hs) h2⟩

/-- After `tick` on a sorted list no open connection is overdue. -/
theorem Tidy.none_overdue (h : Tidy s xs) (hs : Ascending s.timerLst.heap xs)
    (hclock : s.clock ≤ cur) (hstep : s.timerHandler cur = some s') {fd : ℤ} {c : Conn}
    (hc : s'.conns fd = some c) : cur < c.last + 3 * timeslot := by
  obtain ⟨h1, h2, -⟩ := h.timerHandler hclock hstep
  obtain ⟨a, ha, ho⟩ := h1.conn fd c hc
  obtain ⟨t, ht⟩ := h1.holds.seg.mem ha
  have he : expireAt s'.timerLst.heap a = c.last + 3 * timeslot := by
    rw [expireAt_of_some ht]
    simpa [ht, data] using congrArg (Option.map Prod.fst) ho.timer
  rw [← he, h2 a ha]
  exact lt_of_mem_dropWhile hs ha

theorem ascending_reach (h : Reach Init (fun s e => Legal s e ∧ AdjustsItsOwn s e) step s) :
    ∃ xs, Tidy s xs ∧ Ascending s.timerLst.heap xs :=
  h.invariant (I := fun s => ∃ xs, Tidy s xs ∧ Ascending s.timerLst.heap xs)
    (fun _ hi => ⟨_, tidy_init hi, List.Pairwise.nil⟩)
    (fun _ _ _ hi hok hstep => ascending_step hi hok.1 hok.2 hstep)

/-- In a run in which `adjust_timer` always moves the timer it is called with, every
call of `timer_handler` closes all connections quiet for three time slots. -/
theorem timerHandler_complete
    (h : Reach Init (fun s e => Legal s e ∧ AdjustsItsOwn s e) step s) (hclock : s.clock ≤ cur)
    (hstep : step s (.timerHandler cur) = some s') (fd : ℤ) (c : Conn)
    (hc : s'.conns fd = some c) : ¬ c.last + 3 * timeslot ≤ cur := by
  obtain ⟨xs, ht, hs⟩ := ascending_reach h
  have := ht.none_overdue hs hclock hstep hc
  omega

/-- Three connections, data on the head of the list: at 16 the one due is closed, and
the next in the list, quiet since 2, is not due yet. -/
theorem timerHandler_complete_three :
    let s := (play (fun s e => Legal s e ∧ AdjustsItsOwn s e) step start [.accept 5 0 0,
      .accept 6 1 1, .accept 7 2 2, .recv 5 .data 2, .recv 5 .data 5]).get (by decide)
    let s' := (step s (.timerHandler 16)).get (by decide)
    s'.conns 6 = none ∧ s'.conns 7 = some ⟨2, 2⟩ ∧ ¬ (2 : ℤ) + 3 * timeslot ≤ 16 := by
  intro s s'
  have hs : Reach Init (fun s e => Legal s e ∧ AdjustsItsOwn s e) step s :=
    reach_of_play init_start (Option.some_get _).symm
  have h7 : s'.conns 7 = some ⟨2, 2⟩ := by decide
  exact ⟨by decide, h7, timerHandler_complete hs (by decide) (Option.some_get _).symm 7 ⟨2, 2⟩ h7⟩

/-- Data on the second of three connections move the timer of the first one behind it,
and `tick` stops in front of a timer that is due. -/
theorem timerHandler_incomplete : ¬ ∀ (s s' : Server) (cur fd : ℤ) (c : Conn),
    Reach Init Legal step s → s.clock ≤ cur → step s (.timerHandler cur) = some s' →
      s'.conns fd = some c → ¬ c.last + 3 * timeslot ≤ cur := by
  intro h
  refine h ((play Legal step start [.accept 5 0 0, .accept 6 1 1, .accept 7 2 2,
    .recv 6 .data 5]).get (by decide)) ((play Legal step start [.accept 5 0 0, .accept 6 1 1,
    .accept 7 2 2, .recv 6 .data 5, .timerHandler 16]).get (by decide)) 16 5 ⟨0, 0⟩
    (reach_of_play init_start (Option.some_get _).symm) (by decide) rfl rfl (by decide)

end LinuxServer.IdleServer
