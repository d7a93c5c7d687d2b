import LinuxServer.IdleServer
import LinuxServer.TimerListSpec
import Mathlib.Data.List.TakeWhile

namespace LinuxServer.IdleServer
open TimerList TimerList.SortTimerLst

/-- The timer `a` belongs to the connection `c` on `fd`: both links between them are
set, and it expires three slots after the last activity. -/
structure Owns (s : Server) (a : ℕ) (fd : ℤ) (c : Conn) : Prop where
  timer : (s.timerLst.heap a).map data = some (c.last + 3 * timeslot, fd)
  user : s.users fd = ⟨fd, some a⟩
  conn : s.conns fd = some c
  owner : s.owner a = c.id
  last : c.last ≤ s.clock

/-- The forward chain of `timer_lst` is `xs`; its timers and the open connections
own each other. -/
structure Tidy (s : Server) (xs : List ℕ) : Prop where
  holds : Holds weakBack s.timerLst xs
  timer : ∀ a ∈ xs, ∃ fd c, Owns s a fd c
  conn : ∀ fd c, s.conns fd = some c → ∃ a ∈ xs, Owns s a fd c

theorem Owns.fd_unique {s : Server} {a b : ℕ} {fd fd' : ℤ} {c c' : Conn} (h : Owns s a fd c)
    (h' : Owns s b fd' c') (hab : a ≠ b) : fd ≠ fd' := by
  rintro rfl
  have := h.user.symm.trans h'.user
  simp only [ClientData.mk.injEq, Option.some.injEq, true_and] at this
  exact hab this

theorem Owns.timer_unique {s : Server} {a : ℕ} {fd fd' : ℤ} {c c' : Conn} (h : Owns s a fd c)
    (h' : Owns s a fd' c') : fd = fd' := by
  have := h.timer.symm.trans h'.timer
  simp only [Option.some.injEq, Prod.mk.injEq] at this
  exact this.2

/-- What it takes for a timer to keep its owner from one state to the next. -/
theorem Owns.frame {s s' : Server} {a : ℕ} {fd : ℤ} {c : Conn} (h : Owns s a fd c)
    (hd : (s'.timerLst.heap a).map data = (s.timerLst.heap a).map data)
    (hu : s'.users fd = s.users fd) (hc : s'.conns fd = s.conns fd)
    (ho : s'.owner a = s.owner a) (hl : s.clock ≤ s'.clock) : Owns s' a fd c :=
  ⟨hd.trans h.timer, hu.trans h.user, hc.trans h.conn, ho.trans h.owner, h.last.trans hl⟩

/-- A call of `cb_func` from `tick` is sound: the slot it is passed belongs to an open
connection, the one its timer was created for, quiet for three time slots. -/
def Firing.Sound (f : Firing) : Prop :=
  f.sockfd = f.userData ∧ ∃ c, f.conn = some c ∧ f.owner = c.id ∧ c.last + 3 * timeslot ≤ f.cur

theorem tidy_init {s : Server} (h : Init s) : Tidy s [] := by
  obtain ⟨hl, hc, -⟩ := h
  refine ⟨hl ▸ holds_empty, by simp, fun fd c h => ?_⟩
  rw [hc] at h
  cases h

variable {s s' : Server} {xs : List ℕ} {connfd sockfd cur : ℤ} {addr : ℕ}

/-! ## Only `tick` makes calls of `cb_func` that count -/

/-- `accept` goes through for a descriptor that has a slot in `users`. -/
theorem accept_cases (h : s.accept connfd addr cur = some s') : InUsers connfd ∧
    ∃ l, (s.timerLst.alloc addr (cur + 3 * timeslot) connfd).addTimer (some addr) = some l ∧
      s' = { s with
        timerLst := l
        users := Function.update s.users connfd ⟨connfd, some addr⟩
        conns := Function.update s.conns connfd (some ⟨s.accepted, cur⟩)
        clock := cur
        accepted := s.accepted + 1
        owner := Function.update s.owner addr s.accepted } := by
  unfold Server.accept at h
  split at h
  next hin =>
    obtain ⟨l, hl, hs⟩ := Option.bind_eq_some_iff.mp h
    exact ⟨hin, l, hl, (Option.some.inj hs).symm⟩
  next => cases h

/-- That descriptor was not open. -/
theorem Legal.fresh (hok : Legal s (.accept connfd addr cur)) (hin : InUsers connfd) :
    s.conns connfd = none := by
  obtain ⟨rfl | ⟨-, hnone⟩, -⟩ := hok
  · exact absurd hin (by decide)
  · exact hnone

theorem accept_fired (h : s.accept connfd addr cur = some s') : s'.fired = s.fired := by
  obtain ⟨-, l, -, rfl⟩ := accept_cases h
  rfl

theorem clientData_fired (h : s.clientData sockfd cur = some s') : s'.fired = s.fired := by
  simp only [Server.clientData, Option.bind_eq_bind, Option.bind_eq_some_iff] at h
  obtain ⟨l, -, hs⟩ := h
  rw [← Option.some.inj hs]

theorem closeClient_fired (h : s.closeClient sockfd = some s') : s'.fired = s.fired := by
  simp only [Server.closeClient, Option.bind_eq_bind, Option.bind_eq_some_iff] at h
  obtain ⟨l, -, hs⟩ := h
  rw [← Option.some.inj hs]; rfl

/-! ## One lemma for each branch -/

theorem Tidy.accept (h : Tidy s xs) (hok : Legal s (.accept connfd addr cur))
    (hstep : s.accept connfd addr cur = some s') :
    Tidy s' (insertBy (expireAt s'.timerLst.heap) addr xs) ∧
      ∀ a ∈ xs, expireAt s'.timerLst.heap a = expireAt s.timerLst.heap a := by
  obtain ⟨hin, l, hl, hs⟩ := accept_cases hstep
  have hfd := hok.fresh hin
  obtain ⟨-, hfree, hclock⟩ := hok
  obtain ⟨l', h1, haddr, h3, h4⟩ :=
    h.holds.addNew weakBack_self hfree (cur + 3 * timeslot) connfd
  obtain rfl := Option.some.inj (hl.symm.trans h1)
  have hother : ∀ a fd c, Owns s a fd c → a ∈ xs → Owns s' a fd c := by
    intro a fd c ho ha
    have haa : a ≠ addr := by rintro rfl; exact haddr ha
    have hff : fd ≠ connfd := by rintro rfl; rw [ho.conn] at hfd; cases hfd
    refine ho.frame ?_ (by simp [hs, hff]) (by simp [hs, hff]) (by simp [hs, haa])
      (by simpa [hs] using hclock)
    rw [hs, h3 a]
    simp [alloc, haa]
  have hnew : Owns s' addr connfd ⟨s.accepted, cur⟩ := by
    refine ⟨?_, by simp [hs], by simp [hs], by simp [hs], by simp [hs]⟩
    rw [hs, h3 addr]
    simp [alloc, data]
  refine ⟨⟨?_, fun a ha => ?_, fun fd c hc => ?_⟩, fun a ha => ?_⟩
  · simpa only [hs] using h4
  · rcases mem_insertBy.mp ha with rfl | ha
    · exact ⟨_, _, hnew⟩
    · obtain ⟨fd, c, ho⟩ := h.timer a ha
      exact ⟨fd, c, hother a fd c ho ha⟩
  · by_cases hfc : fd = connfd
    · subst hfc
      obtain rfl : (⟨s.accepted, cur⟩ : Conn) = c := by simpa [hs] using hc
      exact ⟨addr, mem_insertBy.mpr (.inl rfl), hnew⟩
    · obtain ⟨a, ha, ho⟩ := h.conn fd c (by simpa [hs, hfc] using hc)
      exact ⟨a, mem_insertBy.mpr (.inr ha), hother a fd c ho ha⟩
  · have haa : a ≠ addr := by rintro rfl; exact haddr ha
    rw [hs, h3.expireAt_eq]
    simp [alloc, expireAt, haa]

/-- Nothing but the time passes. -/
theorem Tidy.wait (h : Tidy s xs) (hclock : s.clock ≤ cur) : Tidy { s with clock := cur } xs := by
  refine ⟨h.holds, fun a ha => ?_, fun fd c hc => ?_⟩
  · obtain ⟨fd, c, ho⟩ := h.timer a ha
    exact ⟨fd, c, ho.frame rfl rfl rfl rfl hclock⟩
  · obtain ⟨a, ha, ho⟩ := h.conn fd c hc
    exact ⟨a, ha, ho.frame rfl rfl rfl rfl hclock⟩

theorem Tidy.closeClient (h : Tidy s xs) (hopen : s.conns sockfd ≠ none)
    (hstep : s.closeClient sockfd = some s') :
    ∃ a, (s.users sockfd).timer = some a ∧ Tidy s' (xs.erase a) ∧
      SameData (Function.update s.timerLst.heap a none) s'.timerLst.heap := by
  obtain ⟨c, hc⟩ := Option.ne_none_iff_exists'.mp hopen
  obtain ⟨a, ha, ho⟩ := h.conn sockfd c hc
  simp only [Server.closeClient, Server.cbFunc, ho.user, ne_eq, reduceCtorEq, not_false_eq_true,
    if_true, Option.bind_eq_bind] at hstep
  obtain ⟨l', hdel, hs⟩ := Option.bind_eq_some_iff.mp hstep
  have hs := (Option.some.inj hs).symm
  obtain ⟨-, h1, h2⟩ := delTimer_spec h.holds ha hdel
  -- another timer is about another descriptor, and is neither freed nor closed
  have hother : ∀ b fd c', Owns s b fd c' → b ≠ a → Owns s' b fd c' := by
    intro b fd c' hb hba
    have hfd : fd ≠ sockfd := hb.fd_unique ho hba
    refine hb.frame ?_ (by simp [hs]) (by simp [hs, hfd]) (by simp [hs]) (by simp [hs])
    rw [hs, h1 b, Function.update_of_ne hba]
  refine ⟨a, by rw [ho.user], ⟨hs ▸ h2, fun b hb => ?_, fun fd c' hc' => ?_⟩, hs ▸ h1⟩
  · obtain ⟨hba, hb⟩ := (h.holds.nodup.mem_erase_iff).mp hb
    obtain ⟨fd, c', hb⟩ := h.timer b hb
    exact ⟨fd, c', hother b fd c' hb hba⟩
  · have hfd : fd ≠ sockfd := by rintro rfl; simp [hs] at hc'
    obtain ⟨b, hb, hob⟩ := h.conn fd c' (by simpa [hs, hfd] using hc')
    have hba : b ≠ a := by rintro rfl; exact hfd (hob.timer_unique ho)
    exact ⟨b, (h.holds.nodup.mem_erase_iff).mpr ⟨hba, hb⟩, hother b fd c' hob hba⟩

/-- The list in which `clientData` has written the new expiry time of `a`. -/
def raised (l : SortTimerLst) (a : ℕ) (t : UtilTimer) (cur : ℤ) : SortTimerLst :=
  { l with heap := Function.update l.heap a (some { t with expire := cur + 3 * timeslot }) }

theorem holds_raised {back : Option ℕ → Option ℕ → Prop} {l : SortTimerLst} {a : ℕ} {t : UtilTimer}
    (h : Holds back l xs) (ht : l.heap a = some t) : Holds back (raised l a t cur) xs :=
  h.setExpire ht _

theorem clientData_eq {a : ℕ} {t : UtilTimer} (hu : s.users sockfd = ⟨sockfd, some a⟩)
    (ht : s.timerLst.heap a = some t) : s.clientData sockfd cur =
      ((raised s.timerLst a t cur).adjustTimer (some a)).map fun l => { s with
        timerLst := l
        conns := Function.update s.conns sockfd
          ((s.conns sockfd).map fun c => { c with last := cur }) } := by
  simp only [Server.clientData, hu, write, ht, raised, Option.bind_eq_bind, Option.bind_some, ne_eq,
    reduceCtorEq, not_false_eq_true, if_true]
  cases adjustTimer _ _ <;> rfl

theorem Tidy.clientData {a : ℕ} {t : UtilTimer} {c : Conn} {l' : SortTimerLst} {ys : List ℕ}
    (h : Tidy s xs) (ho : Owns s a sockfd c) (hclock : s.clock = cur)
    (ht : s.timerLst.heap a = some t) (hd : SameData (raised s.timerLst a t cur).heap l'.heap)
    (hl : Holds weakBack l' ys) (hperm : ys.Perm xs)
    (hs : s' = { s with
      timerLst := l'
      conns := Function.update s.conns sockfd
        ((s.conns sockfd).map fun c => { c with last := cur }) }) : Tidy s' ys := by
  have hud : t.userData = sockfd := by simpa [ht, data] using congrArg (Option.map Prod.snd) ho.timer
  have hother : ∀ b fd c', Owns s b fd c' → b ≠ a → Owns s' b fd c' := by
    intro b fd c' hb hba
    have hfd : fd ≠ sockfd := hb.fd_unique ho hba
    refine hb.frame ?_ (by simp [hs]) (by simp [hs, hfd]) (by simp [hs]) (by simp [hs])
    rw [hs, hd b]
    simp [raised, hba]
  have hself : Owns s' a sockfd { c with last := cur } := by
    refine ⟨?_, by simpa [hs] using ho.user, by simp [hs, ho.conn], by simpa [hs] using ho.owner,
      by simp [hs, hclock]⟩
    rw [hs, hd a]
    simp [raised, data, hud]
  refine ⟨hs ▸ hl, fun b hb => ?_, fun fd c' hc' => ?_⟩
  · by_cases hba : b = a
    · exact hba ▸ ⟨_, _, hself⟩
    · obtain ⟨fd, c', hob⟩ := h.timer b (hperm.mem_iff.mp hb)
      exact ⟨fd, c', hother b fd c' hob hba⟩
  · by_cases hfd : fd = sockfd
    · subst hfd
      obtain ⟨b, hb, hob⟩ := h.conn fd c ho.conn
      have hba : b = a := by
        by_contra hba
        exact hob.fd_unique ho hba rfl
      obtain rfl : { c with last := cur } = c' := by simpa [hs, ho.conn] using hc'
      exact ⟨a, hperm.mem_iff.mpr (hba ▸ hb), hself⟩
    · obtain ⟨b, hb, hob⟩ := h.conn fd c' (by simpa [hs, hfd] using hc')
      have hba : b ≠ a := by rintro rfl; exact hfd (hob.timer_unique ho)
      exact ⟨b, hperm.mem_iff.mpr hb, hother b fd c' hob hba⟩

/-- Received data: the timer of the connection is raised, then the list adjusted. -/
theorem Tidy.recvData (h : Tidy s xs) (hopen : s.conns sockfd ≠ none) (hclock : s.clock = cur)
    (hstep : s.clientData sockfd cur = some s') :
    ∃ a t ys, a ∈ xs ∧ (s.users sockfd).timer = some a ∧ s.timerLst.heap a = some t ∧
      t.expire ≤ cur + 3 * timeslot ∧
      (raised s.timerLst a t cur).adjustTimer (some a) = some s'.timerLst ∧
      SameData (raised s.timerLst a t cur).heap s'.timerLst.heap ∧
      Holds weakBack s'.timerLst ys ∧ Tidy s' ys := by
  obtain ⟨c, hc⟩ := Option.ne_none_iff_exists'.mp hopen
  obtain ⟨a, ha, ho⟩ := h.conn sockfd c hc
  obtain ⟨t, ht⟩ := h.holds.seg.mem ha
  obtain ⟨l', ys, h1, -, h3, h4, h5⟩ := adjustTimer_spec (l := raised s.timerLst a t cur)
    weakBack_self (holds_raised h.holds ht) ha
  rw [clientData_eq ho.user ht, h1] at hstep
  have hs := (Option.some.inj hstep).symm
  have hexp : t.expire = c.last + 3 * timeslot := by
    simpa [ht, data] using congrArg (Option.map Prod.fst) ho.timer
  have hl : s'.timerLst = l' := by rw [hs]
  refine ⟨a, t, ys, ha, by rw [ho.user], ht, ?_, hl ▸ h1, hl ▸ h3, hl ▸ h4,
    h.clientData ho hclock ht h3 h4 h5 hs⟩
  have := ho.last
  omega

/-! ## `tick` -/

/-- The `user_data` of the timer at `a`. -/
def userDataAt (h : ℕ → Option UtilTimer) (a : ℕ) : ℤ := (h a).elim 0 UtilTimer.userData

theorem foldl_fire_frame (cur : ℤ) (ud : ℕ → ℤ) (ys : List ℕ) (s : Server) :
    let s' := ys.foldl (fun s a => s.fire cur a (ud a)) s
    s'.users = s.users ∧ s'.owner = s.owner ∧ s'.clock = s.clock := by
  induction ys generalizing s with
  | nil => exact ⟨rfl, rfl, rfl⟩
  | cons a ys ih => exact ih (s.fire cur a (ud a))

/-- The connections that the calls of `cb_func` close are those of their client data. -/
theorem foldl_fire_conns (cur : ℤ) (ud : ℕ → ℤ) (ys : List ℕ)
    (hsock : ∀ a ∈ ys, (s.users (ud a)).sockfd = ud a) (fd : ℤ) :
    (ys.foldl (fun s a => s.fire cur a (ud a)) s).conns fd =
      if ∃ a ∈ ys, ud a = fd then none else s.conns fd := by
  induction ys generalizing s with
  | nil => simp
  | cons a ys ih =>
    rw [List.foldl_cons, ih (s := s.fire cur a (ud a)) fun b hb => hsock b (by simp [hb])]
    have hself := hsock a (by simp)
    simp only [Server.fire, Server.cbFunc, hself, Function.update_apply, List.mem_cons, exists_eq_or_imp]
    by_cases hfd : fd = ud a
    · simp [hfd]
    · simp [hfd, Ne.symm hfd]

/-- The calls of `cb_func` for timers that own their connections are sound. -/
theorem foldl_fire_fired (cur : ℤ) (ud : ℕ → ℤ) {ys : List ℕ} (hnd : ys.Nodup)
    (hown : ∀ a ∈ ys, ∃ c, Owns s a (ud a) c ∧ c.last + 3 * timeslot ≤ cur) :
    ∀ f ∈ (ys.foldl (fun s a => s.fire cur a (ud a)) s).fired, f ∈ s.fired ∨ f.Sound := by
  induction ys generalizing s with
  | nil => exact fun f hf => .inl hf
  | cons a ys ih =>
    obtain ⟨ham, hnd⟩ := List.nodup_cons.mp hnd
    obtain ⟨c, hc, hlast⟩ := hown a (by simp)
    have hsock : (s.users (ud a)).sockfd = ud a := by rw [hc.user]
    have hown' : ∀ b ∈ ys, ∃ c, Owns (s.fire cur a (ud a)) b (ud b) c ∧
        c.last + 3 * timeslot ≤ cur := by
      intro b hb
      obtain ⟨c', hc', hl⟩ := hown b (by simp [hb])
      have hba : b ≠ a := by rintro rfl; exact ham hb
      have hud : ud b ≠ ud a := hc'.fd_unique hc hba
      exact ⟨c', hc'.frame rfl rfl (by simp [Server.fire, Server.cbFunc, hsock, hud]) rfl le_rfl, hl⟩
    intro f hf
    rcases ih hnd hown' f hf with hf | hf
    · rcases List.mem_append.mp hf with hf | hf
      · exact .inl hf
      · obtain rfl := List.mem_singleton.mp hf
        exact .inr ⟨hsock, c, hc.conn, hc.owner, hlast⟩
    · exact .inr hf

/-- `timer_handler` fires the timers in front that are due, and keeps the others. -/
theorem timerHandler_spec (h : Holds weakBack s.timerLst xs) (hstep : s.timerHandler cur = some s') :
    s' = { (xs.takeWhile (expireAt s.timerLst.heap · ≤ cur)).foldl
        (fun (t : Server) a => t.fire cur a (userDataAt s.timerLst.heap a)) { s with clock := cur } with
        timerLst := s'.timerLst } ∧
      Holds weakBack s'.timerLst (xs.dropWhile (expireAt s.timerLst.heap · ≤ cur)) ∧
      ∀ a ∈ xs.dropWhile (expireAt s.timerLst.heap · ≤ cur),
        (s'.timerLst.heap a).map data = (s.timerLst.heap a).map data := by
  obtain ⟨l', h1, h2, -, -, h4⟩ := tick_spec (Server.fire cur) cur (expireAt s.timerLst.heap)
    (userDataAt s.timerLst.heap) (w := { s with clock := cur }) (weakBack_self none) h fun _ => h.map_data
  simp only [Server.timerHandler] at hstep h1
  rw [h1] at hstep
  obtain rfl := Option.some.inj hstep
  refine ⟨rfl, h2, fun a ha => ?_⟩
  rw [h4, if_neg ((mem_dropWhile_iff h.nodup).mp ha).2]

/-! ## What goes through over a list with sound links -/

theorem accept_goes_on (h : Holds weakBack s.timerLst xs) (hin : InUsers connfd)
    (hfree : s.timerLst.heap addr = none) : ∃ s', s.accept connfd addr cur = some s' := by
  obtain ⟨l', h1, -⟩ := h.addNew weakBack_self hfree (cur + 3 * timeslot) connfd
  simp [Server.accept, hin, h1]

theorem clientData_goes_on {a : ℕ} (h : Holds weakBack s.timerLst xs) (ha : a ∈ xs)
    (hu : s.users sockfd = ⟨sockfd, some a⟩) : ∃ s', s.clientData sockfd cur = some s' := by
  obtain ⟨t, ht⟩ := h.seg.mem ha
  obtain ⟨l', ys, h1, -⟩ := adjustTimer_spec (l := raised s.timerLst a t cur) weakBack_self
    (holds_raised h ht) ha
  have hraised : (raised s.timerLst a t cur).adjustTimer (some a) = some l' := h1
  rw [clientData_eq hu ht, hraised]
  exact ⟨_, rfl⟩

theorem timerHandler_goes_on (h : Holds weakBack s.timerLst xs) : ∃ s', s.timerHandler cur = some s' := by
  obtain ⟨l', h1, -⟩ := tick_spec (Server.fire cur) cur (expireAt s.timerLst.heap)
    (userDataAt s.timerLst.heap) (w := { s with clock := cur }) (weakBack_self none) h fun _ => h.map_data
  simp only [Server.timerHandler] at h1 ⊢
  rw [h1]
  exact ⟨_, rfl⟩

theorem Tidy.timerHandler (h : Tidy s xs) (hclock : s.clock ≤ cur)
    (hstep : s.timerHandler cur = some s') :
    Tidy s' (xs.dropWhile (expireAt s.timerLst.heap · ≤ cur)) ∧
      (∀ a ∈ xs.dropWhile (expireAt s.timerLst.heap · ≤ cur),
        expireAt s'.timerLst.heap a = expireAt s.timerLst.heap a) ∧
      ∀ f ∈ s'.fired, f ∈ s.fired ∨ f.Sound := by
  have hw := h.wait hclock
  have hown : ∀ a ∈ xs, ∃ c, Owns { s with clock := cur } a (userDataAt s.timerLst.heap a) c ∧
      expireAt s.timerLst.heap a = c.last + 3 * timeslot := by
    intro a ha
    obtain ⟨fd, c, ho⟩ := hw.timer a ha
    obtain ⟨t, ht⟩ := h.holds.seg.mem ha
    have htd := ho.timer
    simp only [ht, Option.map_some, data, Option.some.injEq, Prod.mk.injEq] at htd
    refine ⟨c, ?_, by rw [expireAt_of_some ht, htd.1]⟩
    simpa [userDataAt, ht, htd.2] using ho
  obtain ⟨hs, hl, hkeep⟩ := timerHandler_spec h.holds hstep
  have hdue : ∀ a ∈ xs.takeWhile (expireAt s.timerLst.heap · ≤ cur), a ∈ xs :=
    fun a ha => (List.takeWhile_sublist _).subset ha
  obtain ⟨hu, how, hcl⟩ := foldl_fire_frame cur (userDataAt s.timerLst.heap)
    (xs.takeWhile (expireAt s.timerLst.heap · ≤ cur)) { s with clock := cur }
  have hconn := foldl_fire_conns (s := { s with clock := cur }) cur (userDataAt s.timerLst.heap)
    (xs.takeWhile (expireAt s.timerLst.heap · ≤ cur)) fun a ha => by
      obtain ⟨c, ho, -⟩ := hown a (hdue a ha)
      rw [ho.user]
  have hfired := foldl_fire_fired (s := { s with clock := cur }) cur (userDataAt s.timerLst.heap)
    (h.holds.nodup.sublist (List.takeWhile_sublist (expireAt s.timerLst.heap · ≤ cur))) fun a ha => by
      obtain ⟨c, ho, he⟩ := hown a (hdue a ha)
      have := List.mem_takeWhile_imp ha
      exact ⟨c, ho, by simpa [he] using this⟩
  -- the timers that do not fire keep their data, and with them their owners
  have hother : ∀ a ∈ xs.dropWhile (expireAt s.timerLst.heap · ≤ cur), ∀ fd c,
      Owns { s with clock := cur } a fd c → Owns s' a fd c := by
    intro a ha fd c ho
    refine ho.frame (hkeep a ha) (by rw [hs, hu]) ?_ (by rw [hs, how]) (by rw [hs, hcl])
    rw [hs, hconn, if_neg]
    rintro ⟨b, hb, rfl⟩
    obtain ⟨c', hob, -⟩ := hown b (hdue b hb)
    have hab : a ≠ b := by
      rintro rfl
      exact ((mem_dropWhile_iff h.holds.nodup).mp ha).2 hb
    exact ho.fd_unique hob hab rfl
  refine ⟨⟨hl, fun a ha => ?_, fun fd c hc => ?_⟩, fun a ha => expireAt_congr (hkeep a ha), fun f hf => ?_⟩
  · obtain ⟨c, ho, -⟩ := hown a ((mem_dropWhile_iff h.holds.nodup).mp ha).1
    exact ⟨_, c, hother a ha _ c ho⟩
  · rw [hs, hconn] at hc
    split at hc
    next => cases hc
    next hn =>
      obtain ⟨a, ha, ho⟩ := hw.conn fd c hc
      obtain ⟨c', ho', -⟩ := hown a ha
      -- a connection that is still open has a timer that did not fire
      have hda : a ∈ xs.dropWhile (expireAt s.timerLst.heap · ≤ cur) :=
        (mem_dropWhile_iff h.holds.nodup).mpr ⟨ha, fun hf => hn ⟨a, hf, ho'.timer_unique ho⟩⟩
      exact ⟨a, hda, hother a hda fd c ho⟩
  · rw [hs] at hf
    exact hfired f hf

/-! ## Runs -/

/-- What every step keeps: the list and the connections own each other, and every
call of `cb_func` made so far was sound. -/
theorem tidy_step {e : Event} (h : ∃ xs, Tidy s xs) (hf : ∀ f ∈ s.fired, f.Sound)
    (hok : Legal s e) (hstep : step s e = some s') :
    (∃ xs, Tidy s' xs) ∧ ∀ f ∈ s'.fired, f.Sound := by
  obtain ⟨xs, h⟩ := h
  cases e with
  | accept connfd addr now =>
    exact ⟨⟨_, (h.accept hok hstep).1⟩, (accept_fired hstep).symm ▸ hf⟩
  | recv sockfd ret now =>
    obtain ⟨hopen, hclock⟩ := hok
    have hw := h.wait hclock
    cases ret with
    | data =>
      obtain ⟨a, t, ys, -, -, -, -, -, -, -, ht⟩ := hw.recvData hopen rfl hstep
      exact ⟨⟨ys, ht⟩, (clientData_fired (s := { s with clock := now }) hstep).symm ▸ hf⟩
    | again =>
      obtain rfl := Option.some.inj hstep
      exact ⟨⟨xs, hw⟩, hf⟩
    | eof | error =>
      obtain ⟨a, -, ht, -⟩ := hw.closeClient hopen hstep
      exact ⟨⟨_, ht⟩, (closeClient_fired (s := { s with clock := now }) hstep).symm ▸ hf⟩
  | timerHandler now =>
    obtain ⟨ht, -, hfired⟩ := h.timerHandler hok hstep
    exact ⟨⟨_, ht⟩, fun f hf' => (hfired f hf').elim (hf f) id⟩

theorem tidy_reach (h : Reach Init Legal step s) :
    (∃ xs, Tidy s xs) ∧ ∀ f ∈ s.fired, f.Sound :=
  h.invariant (I := fun s => (∃ xs, Tidy s xs) ∧ ∀ f ∈ s.fired, f.Sound)
    (fun s hi => ⟨⟨_, tidy_init hi⟩, by simp [hi.2.2]⟩)
    (fun _ _ _ hi hok hstep => tidy_step hi.1 hi.2 hok hstep)

/-- `tick` never closes a connection early, and never one its timer was not made for. -/
theorem fired_sound (h : Reach Init Legal step s) {f : Firing} (hf : f ∈ s.fired) : f.Sound :=
  (tidy_reach h).2 f hf

/-- The server before its event loop, with zeroed memory in `users`. -/
def start : Server where
  timerLst := .empty
  users _ := ⟨0, none⟩
  conns _ := none
  clock := 0
  accepted := 0
  owner _ := 0
  fired := []

theorem init_start : Init start := ⟨rfl, rfl, rfl⟩

/-- Descriptor 5 is closed by `tick`, used again, and closed by `tick` again. -/
theorem fired_sound_reuse : Firing.Sound ⟨40, 5, 5, some ⟨2, 21⟩, 2⟩ :=
  fired_sound (s := (play Legal step start [.accept 5 0 0, .accept 6 1 1, .timerHandler 15,
    .accept 5 0 20, .recv 5 .data 21, .timerHandler 40]).get (by decide))
    (reach_of_play init_start (Option.some_get _).symm) (by decide)

end LinuxServer.IdleServer
