import LinuxServer.IdleServerOwnership

/-!
# Timers and connections when calls fail

Every call may fail here and time may do anything; `users` starts with no timers.
-/

namespace LinuxServer.IdleServer
open TimerList TimerList.SortTimerLst

/-- The server before its event loop, all of `users[*].timer` being `NULL`. -/
def Fresh (s : Server) : Prop := Init s ∧ ∀ fd, InUsers fd → (s.users fd).timer = none

/-- What the system promises when its calls may fail. -/
def Usual (s : Server) : Event → Prop
  | .accept connfd addr _ =>
    (connfd = -1 ∨ InUsers connfd ∧ s.conns connfd = none) ∧ s.timerLst.heap addr = none
  | .recv sockfd _ _ => s.conns sockfd ≠ none
  | .timerHandler _ => True

instance (s : Server) : (e : Event) → Decidable (Usual s e)
  | .accept _ _ _ => inferInstanceAs (Decidable (_ ∧ _))
  | .recv _ _ _ => inferInstanceAs (Decidable (_ ≠ _))
  | .timerHandler _ => isTrue trivial

/-- No `accept` fails and no connection is closed: `recv` finds neither the end of the
file nor an error, and `tick` finds a first timer that is not due. -/
def Quiet (s : Server) : Event → Prop
  | .accept connfd _ _ => connfd ≠ -1
  | .recv _ ret _ => ret = .data ∨ ret = .again
  | .timerHandler now => ∀ a ∈ s.timerLst.head, now < expireAt s.timerLst.heap a

instance (s : Server) : (e : Event) → Decidable (Quiet s e)
  | .accept _ _ _ => inferInstanceAs (Decidable (_ ≠ _))
  | .recv _ _ _ => inferInstanceAs (Decidable (_ ∨ _))
  | .timerHandler _ => inferInstanceAs (Decidable (∀ _ ∈ _, _))

/-- The timer `a` points to the client data of `fd`, which points back. -/
def Joined (s : Server) (a : ℕ) (fd : ℤ) : Prop :=
  (s.timerLst.heap a).map UtilTimer.userData = some fd ∧ (s.users fd).timer = some a

/-- The linked timers and the open connections are joined in pairs. -/
structure Paired (s : Server) : Prop where
  timer : ∀ a ∈ s.timerLst.timers, ∃ fd, s.conns fd ≠ none ∧ Joined s a fd
  conn : ∀ fd, s.conns fd ≠ none → InUsers fd ∧ ∃ a ∈ s.timerLst.timers, Joined s a fd

/-- And no other slot of `users` has a timer. -/
structure Matched (s : Server) : Prop extends Paired s where
  closed : ∀ fd, InUsers fd → s.conns fd = none → (s.users fd).timer = none

/-- The pairs, over a list that is sound itself, and `cb_func` would close the connection
that it is called for. -/
structure Served (s : Server) (xs : List ℕ) : Prop where
  holds : Holds weakBack s.timerLst xs
  timer : ∀ a ∈ xs, ∃ fd, s.conns fd ≠ none ∧ Joined s a fd
  conn : ∀ fd, s.conns fd ≠ none → InUsers fd ∧ (s.users fd).sockfd = fd ∧ ∃ a ∈ xs, Joined s a fd

variable {s s' : Server} {xs ys : List ℕ} {connfd sockfd cur : ℤ} {addr a : ℕ} {e : Event}

theorem Served.paired (h : Served s xs) : Paired s := by
  refine ⟨fun a ha => h.timer a (h.holds.timers_eq ▸ ha), fun fd hfd => ?_⟩
  obtain ⟨hin, -, hj⟩ := h.conn fd hfd
  exact ⟨hin, h.holds.timers_eq.symm ▸ hj⟩

theorem served_init (h : Fresh s) : Served s [] := by
  obtain ⟨⟨hl, hc, -⟩, -⟩ := h
  exact ⟨hl ▸ holds_empty, by simp, fun fd h => by simp [hc] at h⟩

theorem Joined.timer_unique {b : ℕ} {fd : ℤ} (h : Joined s a fd) (h' : Joined s b fd) : a = b :=
  Option.some.inj (h.2.symm.trans h'.2)

/-- What it takes to go on being joined. -/
theorem Joined.frame {fd : ℤ} (h : Joined s a fd)
    (hd : (s'.timerLst.heap a).map UtilTimer.userData = (s.timerLst.heap a).map UtilTimer.userData)
    (hu : s'.users fd = s.users fd) : Joined s' a fd :=
  ⟨hd.trans h.1, hu ▸ h.2⟩

theorem map_userData {h h' : ℕ → Option UtilTimer} (hd : (h' a).map data = (h a).map data) :
    (h' a).map UtilTimer.userData = (h a).map UtilTimer.userData := by
  have := congrArg (Option.map Prod.snd) hd
  simpa [Option.map_map, Function.comp_def, data] using this

/-- Some timers are taken out together with their connections, and nothing else. -/
theorem Served.takeOut (fired : List ℕ) (h : Served s xs) (hl : Holds weakBack s'.timerLst ys)
    (hmem : ∀ a, a ∈ ys ↔ a ∈ xs ∧ a ∉ fired)
    (hd : ∀ a ∈ ys, (s'.timerLst.heap a).map UtilTimer.userData =
      (s.timerLst.heap a).map UtilTimer.userData)
    (hu : s'.users = s.users)
    (hc : ∀ fd, s'.conns fd = none ↔ s.conns fd = none ∨ ∃ a ∈ fired, Joined s a fd) : Served s' ys := by
  have hjoin : ∀ a ∈ ys, ∀ fd, Joined s a fd → Joined s' a fd :=
    fun a ha fd hj => hj.frame (hd a ha) (by rw [hu])
  refine ⟨hl, fun a ha => ?_, fun fd hfd => ?_⟩
  · obtain ⟨hx, hno⟩ := (hmem a).mp ha
    obtain ⟨fd, hfd, hj⟩ := h.timer a hx
    refine ⟨fd, fun hnone => ?_, hjoin a ha fd hj⟩
    rcases (hc fd).mp hnone with hnone | ⟨b, hb, hjb⟩
    · exact hfd hnone
    · exact hno (hj.timer_unique hjb ▸ hb)
  · obtain ⟨hopen, hkept⟩ := not_or.mp ((hc fd).not.mp hfd)
    obtain ⟨hin, hsock, a, ha, hj⟩ := h.conn fd hopen
    have hay : a ∈ ys := (hmem a).mpr ⟨ha, fun hf => hkept ⟨a, hf, hj⟩⟩
    exact ⟨hin, hu ▸ hsock, a, hay, hjoin a hay fd hj⟩

/-- The same timers and connections, with other expiry times and in another order. -/
theorem Served.frame (h : Served s xs) (hl : Holds weakBack s'.timerLst ys) (hp : ys.Perm xs)
    (hd : ∀ a ∈ xs, (s'.timerLst.heap a).map UtilTimer.userData =
      (s.timerLst.heap a).map UtilTimer.userData)
    (hu : s'.users = s.users) (hc : ∀ fd, s'.conns fd = none ↔ s.conns fd = none) : Served s' ys :=
  h.takeOut [] hl (fun a => by simp [hp.mem_iff]) (fun a ha => hd a (hp.mem_iff.mp ha)) hu
    fun fd => by simp [hc]

/-! ## The branches -/

theorem accept_eq (h : Holds weakBack s.timerLst xs) (hfree : s.timerLst.heap addr = none)
    (hstep : s.accept connfd addr cur = some s') :
    addr ∉ xs ∧ (∃ ys, Holds weakBack s'.timerLst ys ∧ ∀ b, b ∈ ys ↔ b = addr ∨ b ∈ xs) ∧
      s'.users = Function.update s.users connfd ⟨connfd, some addr⟩ ∧
      s'.conns = Function.update s.conns connfd (some ⟨s.accepted, cur⟩) ∧
      ∀ b, (s'.timerLst.heap b).map UtilTimer.userData =
        if b = addr then some connfd else (s.timerLst.heap b).map UtilTimer.userData := by
  obtain ⟨l', h1, haddr, h3, h4⟩ := h.addNew weakBack_self hfree (cur + 3 * timeslot) connfd
  obtain ⟨-, l, hl, rfl⟩ := accept_cases hstep
  obtain rfl := Option.some.inj (hl.symm.trans h1)
  refine ⟨haddr, ⟨_, h4, fun b => mem_insertBy⟩, rfl, rfl, fun b => ?_⟩
  rw [map_userData (h3 b)]
  by_cases hb : b = addr <;> simp [alloc, hb]

theorem Served.accept (h : Served s xs) (hin : InUsers connfd) (hn : s.conns connfd = none)
    (hfree : s.timerLst.heap addr = none) (hstep : s.accept connfd addr cur = some s') :
    ∃ ys, Served s' ys := by
  obtain ⟨haddr, ⟨ys, hys, hmem⟩, hu, hc, hud⟩ := accept_eq h.holds hfree hstep
  have hother : ∀ a ∈ xs, ∀ fd, s.conns fd ≠ none → Joined s a fd → Joined s' a fd := by
    intro a ha fd hfd hj
    have haa : a ≠ addr := by rintro rfl; exact haddr ha
    have hff : fd ≠ connfd := by rintro rfl; exact hfd hn
    exact hj.frame (by rw [hud, if_neg haa]) (by simp [hu, hff])
  have hnew : Joined s' addr connfd := ⟨by simp [hud], by simp [hu]⟩
  refine ⟨ys, hys, fun a ha => ?_, fun fd hfd => ?_⟩
  · rcases (hmem a).mp ha with rfl | ha
    · exact ⟨connfd, by simp [hc], hnew⟩
    · obtain ⟨fd, hfd, hj⟩ := h.timer a ha
      have hff : fd ≠ connfd := by rintro rfl; exact hfd hn
      exact ⟨fd, by simpa [hc, hff] using hfd, hother a ha fd hfd hj⟩
  · rcases eq_or_ne fd connfd with rfl | hff
    · exact ⟨hin, by simp [hu], addr, (hmem addr).mpr (.inl rfl), hnew⟩
    · have hfd : s.conns fd ≠ none := by simpa [hc, hff] using hfd
      obtain ⟨hin', hsock, a, ha, hj⟩ := h.conn fd hfd
      exact ⟨hin', by simpa [hu, hff] using hsock, a, (hmem a).mpr (.inr ha), hother a ha fd hfd hj⟩

theorem Served.clientData (h : Served s xs) (hopen : s.conns sockfd ≠ none)
    (hstep : s.clientData sockfd cur = some s') : (∃ ys, Served s' ys) ∧ s'.users = s.users ∧
      ∀ fd, s'.conns fd = none ↔ s.conns fd = none := by
  obtain ⟨-, hsock, a, ha, hj⟩ := h.conn sockfd hopen
  obtain ⟨t, ht⟩ := h.holds.seg.mem ha
  have hu : s.users sockfd = ⟨sockfd, some a⟩ :=
    calc s.users sockfd = ⟨(s.users sockfd).sockfd, (s.users sockfd).timer⟩ := rfl
      _ = ⟨sockfd, some a⟩ := by rw [hsock, hj.2]
  obtain ⟨l', ys, h1, -, h3, h4, h5⟩ := adjustTimer_spec (l := raised s.timerLst a t cur)
    weakBack_self (holds_raised h.holds ht) ha
  rw [clientData_eq hu ht, h1] at hstep
  obtain rfl := Option.some.inj hstep
  have hc : ∀ fd, Function.update s.conns sockfd
      ((s.conns sockfd).map fun c => { c with last := cur }) fd = none ↔ s.conns fd = none := by
    intro fd
    rcases eq_or_ne fd sockfd with rfl | hff
    · simp
    · simp [hff]
  refine ⟨⟨ys, h.frame h4 h5 (fun b _ => ?_) rfl hc⟩, rfl, hc⟩
  rw [map_userData (h3 b)]
  rcases eq_or_ne b a with rfl | hba
  · simp [raised, ht]
  · simp [raised, hba]

/-- The connection and its timer go together; the timer stays in `users`. -/
theorem Served.closeClient (h : Served s xs) (hopen : s.conns sockfd ≠ none)
    (hstep : s.closeClient sockfd = some s') : (∃ ys, Served s' ys) ∧ s'.users = s.users ∧
      s'.conns sockfd = none := by
  obtain ⟨-, hsock, a, ha, hj⟩ := h.conn sockfd hopen
  obtain ⟨l', hdel, hs⟩ := Option.bind_eq_some_iff.mp hstep
  rw [hj.2, if_pos (by simp)] at hdel
  obtain rfl := Option.some.inj hs
  obtain ⟨-, h1, h2⟩ := delTimer_spec h.holds ha hdel
  refine ⟨⟨xs.erase a, h.takeOut [a] h2 (fun b => ?_) (fun b hb => ?_) rfl fun fd => ?_⟩, rfl, ?_⟩
  · rw [h.holds.nodup.mem_erase_iff, List.mem_singleton, and_comm]
  · obtain ⟨hba, -⟩ := h.holds.nodup.mem_erase_iff.mp hb
    refine map_userData ((h1 b).trans ?_)
    rw [Function.update_of_ne hba]
  · have hone : (∃ b ∈ [a], Joined s b fd) ↔ fd = sockfd := by
      simp only [List.mem_singleton, exists_eq_left]
      refine ⟨fun hj' => Option.some.inj (hj'.1.symm.trans hj.1), ?_⟩
      rintro rfl
      exact hj
    rw [hone]
    simp only [Server.cbFunc, hsock, Function.update_apply]
    split_ifs with hfd <;> simp [hfd]
  · simp [Server.cbFunc, hsock]

/-- `tick` takes out the timers in front that are due, with their connections. -/
theorem Served.timerHandler (h : Served s xs) (hstep : s.timerHandler cur = some s') :
    (∃ ys, Served s' ys) ∧ s'.users = s.users ∧ ∀ fd, s'.conns fd = none ↔
      s.conns fd = none ∨ ∃ a ∈ xs.takeWhile (expireAt s.timerLst.heap · ≤ cur), Joined s a fd := by
  obtain ⟨hs, hl, hd⟩ := timerHandler_spec h.holds hstep
  have hu : s'.users = s.users := by
    rw [hs]
    exact (foldl_fire_frame ..).1
  have hdue : ∀ a ∈ xs.takeWhile (expireAt s.timerLst.heap · ≤ cur), a ∈ xs :=
    fun a ha => (List.takeWhile_sublist _).subset ha
  have hown : ∀ a ∈ xs, ∃ fd, s.conns fd ≠ none ∧ Joined s a fd ∧ userDataAt s.timerLst.heap a = fd := by
    intro a ha
    obtain ⟨fd, hfd, hj⟩ := h.timer a ha
    obtain ⟨t, ht⟩ := h.holds.seg.mem ha
    exact ⟨fd, hfd, hj, by simpa [userDataAt, ht] using hj.1⟩
  have hconns : ∀ fd, s'.conns fd = none ↔ s.conns fd = none ∨
      ∃ a ∈ xs.takeWhile (expireAt s.timerLst.heap · ≤ cur), Joined s a fd := by
    intro fd
    rw [hs, foldl_fire_conns _ _ _ fun a ha => ?_, ite_eq_left_iff, ← or_iff_not_imp_left, or_comm]
    · refine or_congr_right (exists_congr fun a => and_congr_right fun ha => ?_)
      obtain ⟨fd', -, hj, hud⟩ := hown a (hdue a ha)
      rw [hud]
      refine ⟨fun he => he ▸ hj, fun hj' => ?_⟩
      exact Option.some.inj (hj.1.symm.trans hj'.1)
    · obtain ⟨fd', hfd', -, hud⟩ := hown a (hdue a ha)
      rw [hud]
      exact (h.conn fd' hfd').2.1
  exact ⟨⟨_, h.takeOut _ hl (fun a => mem_dropWhile_iff h.holds.nodup)
    (fun a ha => map_userData (hd a ha)) hu hconns⟩, hu, hconns⟩

/-! ## Runs -/

theorem Served.wait (h : Served s xs) (now : ℤ) : Served { s with clock := now } xs :=
  h.frame h.holds (.refl _) (fun _ _ => rfl) rfl fun _ => .rfl

/-- A failed `accept` is not survived. -/
theorem accept_failed : s.accept (-1) addr cur = none := if_neg (by decide)

theorem Served.step (h : Served s xs) (hok : Usual s e) (hstep : IdleServer.step s e = some s') :
    ∃ ys, Served s' ys := by
  cases e with
  | accept connfd addr now =>
    obtain ⟨rfl | ⟨hin, hn⟩, hfree⟩ := hok
    · cases hstep.symm.trans accept_failed
    · exact h.accept hin hn hfree hstep
  | recv sockfd ret now =>
    cases ret with
    | data => exact ((h.wait now).clientData hok hstep).1
    | eof | error => exact ((h.wait now).closeClient hok hstep).1
    | again =>
      obtain rfl := Option.some.inj hstep
      exact ⟨xs, h.wait now⟩
  | timerHandler now => exact (h.timerHandler hstep).1

/-- Whatever `recv` returns and `tick` closes: the timers and the open connections stay joined
in pairs. -/
theorem timers_paired (h : Reach Fresh Usual step s) : Paired s := by
  obtain ⟨xs, hs⟩ : ∃ xs, Served s xs := by
    refine h.invariant (I := fun s => ∃ xs, Served s xs) (fun s hs => ⟨[], served_init hs⟩) fun s e s' => ?_
    rintro ⟨xs, h⟩ hok hstep
    exact h.step hok hstep
  exact hs.paired

/-- Nothing is due: the timers that `tick` takes out are none. -/
theorem takeWhile_eq_nil (h : Served s xs) (hquiet : Quiet s (.timerHandler cur)) :
    xs.takeWhile (expireAt s.timerLst.heap · ≤ cur) = [] := by
  cases xs with
  | nil => rfl
  | cons a xs =>
    have hlt := hquiet a h.holds.head_eq
    exact List.takeWhile_cons_of_neg (by simpa using hlt)

theorem Matched.step (hm : Matched s) (h : Served s xs) (hok : Usual s e) (hquiet : Quiet s e)
    (hstep : IdleServer.step s e = some s') : Matched s' := by
  obtain ⟨ys, hys⟩ := h.step hok hstep
  refine ⟨hys.paired, fun fd hfd hnone => ?_⟩
  cases e with
  | accept connfd addr now =>
    obtain ⟨-, -, hu, hc, -⟩ := accept_eq h.holds hok.2 hstep
    have hff : fd ≠ connfd := by rintro rfl; simp [hc] at hnone
    have := hm.closed fd hfd (by simpa [hc, hff] using hnone)
    simpa [hu, hff] using this
  | recv sockfd ret now =>
    obtain rfl | rfl := hquiet
    · obtain ⟨-, hu, hc⟩ := (h.wait now).clientData hok hstep
      rw [hu]
      exact hm.closed fd hfd ((hc fd).mp hnone)
    · obtain rfl := Option.some.inj hstep
      exact hm.closed fd hfd hnone
  | timerHandler now =>
    obtain ⟨-, hu, hc⟩ := h.timerHandler hstep
    rw [takeWhile_eq_nil h hquiet] at hc
    rw [hu]
    exact hm.closed fd hfd (by simpa [hc] using hnone)

/-- Without failures and closes every branch goes through. -/
theorem Served.goes_on (h : Served s xs) (hok : Usual s e) (hquiet : Quiet s e) :
    ∃ s', IdleServer.step s e = some s' := by
  cases e with
  | accept connfd addr now =>
    obtain ⟨hfail | ⟨hin, -⟩, hfree⟩ := hok
    · exact absurd hfail hquiet
    · exact accept_goes_on h.holds hin hfree
  | recv sockfd ret now =>
    obtain rfl | rfl := hquiet
    · obtain ⟨-, hsock, a, ha, hj⟩ := h.conn sockfd hok
      have hu : s.users sockfd = ⟨sockfd, some a⟩ :=
        calc s.users sockfd = ⟨(s.users sockfd).sockfd, (s.users sockfd).timer⟩ := rfl
          _ = ⟨sockfd, some a⟩ := by rw [hsock, hj.2]
      exact clientData_goes_on (s := { s with clock := now }) h.holds ha hu
    · exact ⟨_, rfl⟩
  | timerHandler now => exact timerHandler_goes_on h.holds

/-- A connection that is closed leaves its timer in `users`. -/
theorem not_matched_of_closed {fd : ℤ} (hfd : InUsers fd) (hj : Joined s a fd) (hu : s'.users = s.users)
    (hc : s'.conns fd = none) : ¬ Matched s' := by
  intro hm
  have := hm.closed fd hfd hc
  rw [hu, hj.2] at this
  cases this

theorem Served.step_loud (h : Served s xs) (hok : Usual s e) (hloud : ¬ Quiet s e)
    (hstep : IdleServer.step s e = some s') : ¬ Matched s' := by
  cases e with
  | accept connfd addr now =>
    obtain rfl : connfd = -1 := not_not.mp hloud
    cases hstep.symm.trans accept_failed
  | recv sockfd ret now =>
    obtain ⟨hin, -, a, -, hj⟩ := h.conn sockfd hok
    cases ret with
    | data => exact absurd (.inl rfl) hloud
    | again => exact absurd (.inr rfl) hloud
    | eof | error =>
      obtain ⟨-, hu, hc⟩ := (h.wait now).closeClient hok hstep
      exact not_matched_of_closed hin hj hu hc
  | timerHandler now =>
    simp only [Quiet, not_forall, not_lt] at hloud
    obtain ⟨a, ha, hle⟩ := hloud
    obtain ⟨ys, rfl⟩ : ∃ ys, xs = a :: ys := by
      rw [h.holds.head_eq] at ha
      cases xs with
      | nil => cases ha
      | cons b ys =>
        obtain rfl := Option.some.inj ha
        exact ⟨ys, rfl⟩
    obtain ⟨fd, hfd, hj⟩ := h.timer a (by simp)
    obtain ⟨-, hu, hc⟩ := h.timerHandler hstep
    have hdue : a ∈ (a :: ys).takeWhile (expireAt s.timerLst.heap · ≤ now) := by
      rw [List.takeWhile_cons_of_pos (by simpa using hle)]
      simp
    exact not_matched_of_closed (h.conn fd hfd).1 hj hu ((hc fd).mpr (.inr ⟨a, hdue, hj⟩))

/-- As long as no `accept` fails and no connection is closed, every branch goes through and
`users` has no other timers than those of the open connections; the first time one of these
happens, that ends. -/
theorem timers_matched (h : Reach Fresh (fun s e => Usual s e ∧ Quiet s e) step s) :
    Matched s ∧ ∀ e, Usual s e → ((∃ s', step s e = some s' ∧ Matched s') ↔ Quiet s e) := by
  obtain ⟨⟨xs, hs⟩, hm⟩ := h.invariant (I := fun s => (∃ xs, Served s xs) ∧ Matched s)
    (fun s hs => ⟨⟨[], served_init hs⟩, (served_init hs).paired, fun fd hfd _ => hs.2 fd hfd⟩)
    fun s e s' ⟨⟨xs, h⟩, hm⟩ ⟨hok, hquiet⟩ hstep =>
      ⟨h.step hok hstep, hm.step h hok hquiet hstep⟩
  refine ⟨hm, fun e hok => ⟨?_, fun hquiet => ?_⟩⟩
  · rintro ⟨s', hstep, hm'⟩
    by_contra hloud
    exact hs.step_loud hok hloud hstep hm'
  · obtain ⟨s', hstep⟩ := hs.goes_on hok hquiet
    exact ⟨s', hstep, hm.step hs hok hquiet hstep⟩

/-- Two clients, of which one sends. -/
theorem timers_matched_two : ∃ s : Server, Matched s ∧ s.timerLst.timers = [0, 1] := by
  obtain ⟨s, hs, hl⟩ : ∃ s : Server, play (fun s e => Usual s e ∧ Quiet s e) step start
      [.accept 5 0 0, .accept 6 1 1, .recv 5 .data 0, .timerHandler 10] = some s ∧
      s.timerLst.timers = [0, 1] := ⟨_, rfl, by decide⟩
  exact ⟨s, (timers_matched (reach_of_play ⟨init_start, fun _ _ => rfl⟩ hs)).1, hl⟩

/-- A failed `accept` is not survived, and a client that closes leaves its freed timer in
`users`. -/
theorem timers_not_matched :
    (Fresh start ∧ Usual start (.accept (-1) 0 0) ∧ step start (.accept (-1) 0 0) = none) ∧
    ∃ s : Server, Reach Fresh Usual step s ∧ s.conns 5 = none ∧ (s.users 5).timer = some 0 ∧
      s.timerLst.heap 0 = none ∧ ¬ Matched s := by
  refine ⟨⟨⟨init_start, fun _ _ => rfl⟩, by decide, accept_failed⟩, ?_⟩
  obtain ⟨s, hs, hc, hu, hf⟩ : ∃ s : Server,
      play Usual step start [.accept 5 0 0, .recv 5 .eof 1] = some s ∧
      s.conns 5 = none ∧ (s.users 5).timer = some 0 ∧ s.timerLst.heap 0 = none :=
    ⟨_, rfl, by decide⟩
  refine ⟨s, reach_of_play ⟨init_start, fun _ _ => rfl⟩ hs, hc, hu, hf, fun hm => ?_⟩
  have := hm.closed 5 (by decide) hc
  simp [hu] at this

end LinuxServer.IdleServer
