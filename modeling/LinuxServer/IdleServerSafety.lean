import LinuxServer.IdleServerOwnership
import LinuxServer.TimerListOrder

/-!
# When the server of `11-3_close_nonactive_connection.cpp` crashes

Only `del_timer` ever dereferences `NULL`.  It does so when the head of two timers leaves,
and when a timer leaves whose `prev` was cleared because, two places in front of it, a head
had left before.  And a failed `accept`, or a descriptor that is too large, is outside `users`.
-/

namespace LinuxServer.TimerList.SortTimerLst
open Linkage

variable {l l' : SortTimerLst} {a b : ℕ} {xs ys : List ℕ} {t u : UtilTimer}

/-- The deletion of a head with two or more timers behind it goes through, and clears the
`prev` of the second of them. -/
theorem delTimer_head_third {c : ℕ} (h : Holds weakBack l (a :: b :: c :: ys)) :
    ∃ l', l.delTimer (some a) = some l' ∧ l'.head = some b ∧ ∃ t, l'.heap c = some t ∧ t.prev = none := by
  obtain ⟨ham, hnd⟩ := List.nodup_cons.mp h.nodup
  obtain ⟨hbm, -⟩ := List.nodup_cons.mp hnd
  obtain ⟨-, t, ht, -, -, tb, htb, -, hcn, tc, htc, -, -⟩ := h.seg
  simp only [links_next] at hcn
  have hca : c ≠ a := by
    rintro rfl
    simp at ham
  refine ⟨{ l with
      head := some b
      heap := Function.update (Function.update l.heap c (some { tc with prev := none })) a none },
    ?_, rfl, { tc with prev := none }, ?_, rfl⟩
  · rw [delTimer_of_head h htb, hcn]
    simp [setPrev, write, htc, free, Function.update_of_ne hca.symm, ht]
  · simp [Function.update_of_ne hca]

/-- When the deletion of a linked timer crashes. -/
theorem delTimer_none_iff (h : Holds weakBack l xs) (ha : a ∈ xs) : l.delTimer (some a) = none ↔
    (∃ b, xs = [a, b]) ∨ l.head ≠ some a ∧ ∃ t, l.heap a = some t ∧ t.prev = none := by
  obtain ⟨t, hta⟩ := h.seg.mem ha
  obtain ⟨pre, post, rfl, -⟩ := h.split ha hta
  have hhead := h.head_eq
  rcases List.eq_nil_or_concat pre with rfl | ⟨qs, p, rfl⟩
  · have hl : l.head = some a := by simpa using hhead
    match post with
    | [] =>
      obtain ⟨l', h1, -⟩ := delTimer_only h
      simp [h1, hl]
    | [b] =>
      obtain ⟨-, -, -, -, -, tb, htb, -, hbn⟩ := h.seg
      simp only [links_next, seg_nil] at hbn
      rw [List.nil_append] at h ⊢
      rw [delTimer_of_head h htb, hbn]
      simp [setPrev, write]
    | b :: c :: ys =>
      obtain ⟨l', h1, -⟩ := delTimer_head_third h
      simp [h1, hl]
  · simp only [List.concat_eq_append, List.append_assoc, List.singleton_append] at h hhead ⊢
    obtain ⟨r, -, -, tp, -, -, -, t1, ht1, hba, -⟩ := seg_append.mp h.seg
    obtain rfl : t = t1 := Option.some.inj (hta.symm.trans ht1)
    obtain ⟨-, hndp, hdis⟩ := List.nodup_append.mp h.nodup
    have hap : p ≠ a := by
      rintro rfl
      exact (List.nodup_cons.mp hndp).1 (by simp)
    -- something stands in front of `a`, so it is not the head
    have hl : l.head ≠ some a := by
      rw [hhead]
      cases qs with
      | nil => simpa using hap
      | cons x qs =>
        rintro ⟨⟩
        exact hdis a (by simp) a (by simp) rfl
    have htwo : ∀ b, qs ++ p :: a :: post ≠ [a, b] := by
      intro b he
      rw [he] at hhead
      exact hl (by simpa using hhead)
    rcases hba p rfl with hprev | hprev <;> rw [links_prev] at hprev
    · obtain ⟨l', h1, -⟩ := delTimer_behind weakBack_self h hta hprev
      simp [h1, htwo, hl, hta, hprev]
    · simp [delTimer_crash hl hta hprev, hl, hta, hprev]

end LinuxServer.TimerList.SortTimerLst

namespace LinuxServer.IdleServer
open TimerList TimerList.SortTimerLst Linkage

variable {s s' : Server} {e : Event} {xs : List ℕ} {sockfd cur : ℤ}

/-- The client that an event closes. -/
def Event.closes : Event → Option ℤ
  | .recv sockfd .eof _ => some sockfd
  | .recv sockfd .error _ => some sockfd
  | _ => none

/-- The timer of a client is the head of two, or one behind the head without a `prev`. -/
def Trapped (s : Server) (sockfd : ℤ) : Prop :=
  ∃ a, (s.users sockfd).timer = some a ∧ ((∃ b, s.timerLst.timers = [a, b]) ∨
    s.timerLst.head ≠ some a ∧ ∃ t, s.timerLst.heap a = some t ∧ t.prev = none)

theorem Tidy.closeClient_none (h : Tidy s xs) (hopen : s.conns sockfd ≠ none) :
    s.closeClient sockfd = none ↔ Trapped s sockfd := by
  obtain ⟨c, hc⟩ := Option.ne_none_iff_exists'.mp hopen
  obtain ⟨a, ha, ho⟩ := h.conn sockfd c hc
  have hdel : s.closeClient sockfd = none ↔ s.timerLst.delTimer (some a) = none := by
    simp only [Server.closeClient, Server.cbFunc, ho.user, ne_eq, reduceCtorEq, not_false_eq_true,
      if_true, Option.bind_eq_bind]
    cases s.timerLst.delTimer (some a) <;> simp
  rw [hdel, delTimer_none_iff h.holds ha, Trapped, ho.user, h.holds.timers_eq]
  simp

/-- An `accept` with a descriptor that `users` has no slot for. -/
def Outside : Event → Prop
  | .accept connfd _ _ => ¬ InUsers connfd
  | _ => False

instance : (e : Event) → Decidable (Outside e)
  | .accept _ _ _ => inferInstanceAs (Decidable (¬ _))
  | .recv _ _ _ => isFalse id
  | .timerHandler _ => isFalse id

theorem step_outside (h : Outside e) : step s e = none := by
  cases e with
  | accept => exact if_neg h
  | recv | timerHandler => exact h.elim

/-- All the other branches of the event loop go through. -/
theorem Tidy.goes_on (h : Tidy s xs) (hok : Legal s e) (hin : ¬ Outside e) (hcl : e.closes = none) :
    ∃ s', step s e = some s' := by
  cases e with
  | accept connfd addr now =>
    have hin : InUsers connfd := not_not.mp hin
    exact accept_goes_on h.holds hin hok.2.1
  | recv sockfd ret now =>
    obtain ⟨hopen, hclock⟩ := hok
    cases ret with
    | data =>
      obtain ⟨c, hc⟩ := Option.ne_none_iff_exists'.mp hopen
      obtain ⟨a, ha, ho⟩ := (h.wait hclock).conn sockfd c hc
      exact clientData_goes_on (s := { s with clock := now }) h.holds ha ho.user
    | again => exact ⟨_, rfl⟩
    | eof | error => simp [Event.closes] at hcl
  | timerHandler now => exact timerHandler_goes_on h.holds

theorem step_close (hcl : e.closes = some sockfd) :
    ∃ ret now, e = .recv sockfd ret now ∧
      step s e = ({ s with clock := now } : Server).closeClient sockfd := by
  cases e with
  | recv fd ret now =>
    cases ret with
    | eof | error =>
      obtain rfl : fd = sockfd := by simpa [Event.closes] using hcl
      exact ⟨_, now, rfl, rfl⟩
    | data | again => simp [Event.closes] at hcl
  | accept | timerHandler => simp [Event.closes] at hcl

/-- In every run the server crashes exactly when `accept` returns what is no index of `users`,
or a client closes whose timer is the head of two, or stands behind the head without a `prev`. -/
theorem step_none_iff (h : Reach Init Legal step s) (hok : Legal s e) :
    step s e = none ↔ Outside e ∨ ∃ sockfd, e.closes = some sockfd ∧ Trapped s sockfd := by
  obtain ⟨xs, ht⟩ := (tidy_reach h).1
  by_cases hout : Outside e
  · simp [step_outside hout, hout]
  rw [or_iff_right hout]
  cases hcl : e.closes with
  | none =>
    obtain ⟨s', hs⟩ := ht.goes_on hok hout hcl
    simp [hs]
  | some sockfd =>
    obtain ⟨ret, now, rfl, hstep⟩ := step_close (s := s) hcl
    obtain ⟨hopen, hclock⟩ := hok
    rw [hstep, (ht.wait hclock).closeClient_none hopen]
    simp [Trapped]

/-- Of two clients the first closes. -/
theorem step_none_iff_two :
    let s := (play Legal step start [.accept 5 0 0, .accept 6 1 1]).get (by decide)
    step s (.recv 5 .eof 2) = none ↔ Outside (.recv 5 .eof 2) ∨
      ∃ sockfd, (Event.recv 5 .eof 2).closes = some sockfd ∧ Trapped s sockfd :=
  step_none_iff (reach_of_play init_start (Option.some_get _).symm) (by decide)

/-! ## Runs that never crash -/

/-- No client closes whose timer is the head with others behind it. -/
def KeepsHead (s : Server) (e : Event) : Prop :=
  ∀ sockfd, e.closes = some sockfd → ∀ a, (s.users sockfd).timer = some a → s.timerLst.head = some a →
    s.timerLst.timers = [a]

/-- `prev` is the inverse of `next`. -/
def Linked (s : Server) : Prop := ∃ xs, Holds Eq s.timerLst xs

theorem Tidy.linked_step (h : Tidy s xs) (hl : Linked s) (hok : Legal s e) (hkeep : KeepsHead s e)
    (hstep : step s e = some s') : Linked s' := by
  obtain ⟨ys, hys⟩ := hl
  have hxy : xs = ys := h.holds.timers_eq.symm.trans hys.timers_of_eq
  subst hxy
  cases hcl : e.closes with
  | some sockfd =>
    obtain ⟨ret, now, rfl, hcloses⟩ := step_close (s := s) hcl
    obtain ⟨hopen, hclock⟩ := hok
    rw [hcloses] at hstep
    obtain ⟨c, hc⟩ := Option.ne_none_iff_exists'.mp hopen
    obtain ⟨a, ha, ho⟩ := h.conn sockfd c hc
    have hkeep' := hkeep sockfd hcl a (by rw [ho.user])
    simp only [Server.closeClient, Server.cbFunc, ho.user, ne_eq, reduceCtorEq, not_false_eq_true,
      if_true, Option.bind_eq_bind] at hstep
    obtain ⟨l', hdel, hs⟩ := Option.bind_eq_some_iff.mp hstep
    obtain ⟨t, hta⟩ := hys.seg.mem ha
    obtain ⟨pre, post, rfl, -⟩ := hys.split ha hta
    rw [← Option.some.inj hs]
    rcases List.eq_nil_or_concat pre with rfl | ⟨qs, p, rfl⟩
    · have hone := hkeep' (by simpa using hys.head_eq)
      rw [hys.timers_of_eq] at hone
      rw [hone] at hys
      obtain ⟨l'', h1, -, -, h2, -⟩ := delTimer_only hys
      exact ⟨[], Option.some.inj (hdel.symm.trans h1) ▸ h2⟩
    · simp only [List.concat_eq_append, List.append_assoc, List.singleton_append] at hys
      obtain ⟨r, -, -, tp, -, -, -, t1, ht1, hprev, -⟩ := seg_append.mp hys.seg
      obtain rfl : t = t1 := Option.some.inj (hta.symm.trans ht1)
      obtain ⟨l'', h1, -, -, h2⟩ := delTimer_behind (fun _ => rfl) hys hta hprev
      exact ⟨_, Option.some.inj (hdel.symm.trans h1) ▸ h2⟩
  | none =>
    cases e with
    | accept connfd addr now =>
      obtain ⟨l', h1, -, -, h2⟩ := hys.addNew (fun _ => rfl) hok.2.1 (now + 3 * timeslot) connfd
      obtain ⟨-, l, hl, rfl⟩ := accept_cases hstep
      obtain rfl := Option.some.inj (hl.symm.trans h1)
      exact ⟨_, h2⟩
    | recv sockfd ret now =>
      obtain ⟨hopen, hclock⟩ := hok
      cases ret with
      | data =>
        obtain ⟨a, t, -, ha, -, ht, -, h1, -⟩ := (h.wait hclock).recvData hopen rfl hstep
        obtain ⟨l', zs, h2, -, -, h3, -⟩ := adjustTimer_spec (l := raised s.timerLst a t now) (fun _ => rfl)
          (holds_raised hys ht) ha
        have hl : s'.timerLst = l' := Option.some.inj (h1.symm.trans h2)
        exact ⟨zs, hl ▸ h3⟩
      | again =>
        rw [← Option.some.inj hstep]
        exact ⟨_, hys⟩
      | eof | error => simp [Event.closes] at hcl
    | timerHandler now =>
      obtain ⟨l', h1, h2, -⟩ := tick_spec (Server.fire now) now (expireAt s.timerLst.heap)
        (userDataAt s.timerLst.heap) (w := { s with clock := now }) rfl hys fun _ => hys.map_data
      simp only [step, Server.timerHandler] at h1 hstep
      rw [h1] at hstep
      rw [← Option.some.inj hstep]
      exact ⟨_, h2⟩

/-- With `prev` right everywhere, a client may close unless its timer is the head with one
other behind it. -/
theorem not_trapped (hl : Linked s) (h : Tidy s xs) (hopen : s.conns sockfd ≠ none)
    (hkeep : ∀ a, (s.users sockfd).timer = some a → s.timerLst.head = some a → s.timerLst.timers = [a]) :
    ¬ Trapped s sockfd := by
  obtain ⟨ys, hys⟩ := hl
  obtain ⟨c, hc⟩ := Option.ne_none_iff_exists'.mp hopen
  obtain ⟨a, ha, ho⟩ := h.conn sockfd c hc
  have hxy : xs = ys := h.holds.timers_eq.symm.trans hys.timers_of_eq
  subst hxy
  have htimer : (s.users sockfd).timer = some a := by rw [ho.user]
  intro ⟨a', ha', htrap⟩
  obtain rfl : a = a' := Option.some.inj (htimer.symm.trans ha')
  rcases htrap with ⟨b, hb⟩ | ⟨hhead, t, ht, hprev⟩
  · have htwo : xs = [a, b] := hys.timers_of_eq.symm.trans hb
    have hone := hkeep a htimer (by rw [hys.head_eq, htwo]; rfl)
    rw [hone] at hb
    simp at hb
  · obtain ⟨pre, post, rfl, -⟩ := hys.split ha ht
    rcases List.eq_nil_or_concat pre with rfl | ⟨qs, p, rfl⟩
    · exact hhead (by simpa using hys.head_eq)
    · simp only [List.concat_eq_append, List.append_assoc, List.singleton_append] at hys
      obtain ⟨r, -, -, tp, -, -, -, t1, ht1, hback, -⟩ := seg_append.mp hys.seg
      obtain rfl : t = t1 := Option.some.inj (ht.symm.trans ht1)
      cases hprev.symm.trans hback

/-- A client whose timer is the head leaves others behind: the server crashes, or can crash
next. -/
theorem crash_of_head (h : Tidy s xs) (hok : Legal s e) (hkeep : ¬ KeepsHead s e) :
    step s e = none ∨ ∃ s' e', step s e = some s' ∧ Legal s' e' ∧ step s' e' = none := by
  simp only [KeepsHead, not_forall] at hkeep
  obtain ⟨sockfd, hcl, a, htimer, hhead, hmore⟩ := hkeep
  obtain ⟨ret, now, rfl, hstep⟩ := step_close (s := s) hcl
  obtain ⟨hopen, hclock⟩ := hok
  have hw := h.wait hclock
  have htimers := h.holds.timers_eq
  rw [htimers] at hmore
  obtain ⟨c, hc⟩ := Option.ne_none_iff_exists'.mp hopen
  obtain ⟨a', ha, ho⟩ := hw.conn sockfd c hc
  obtain rfl : a = a' := by
    have hu : s.users sockfd = ⟨sockfd, some a'⟩ := ho.user
    rw [hu] at htimer
    exact (Option.some.inj htimer).symm
  have hfirst : firstPtr none xs = some a := h.holds.head_eq.symm.trans hhead
  rw [hstep]
  match xs with
  | [] => simp at ha
  | [b] =>
    obtain rfl : b = a := by simpa using hfirst
    exact absurd rfl hmore
  | [b, d] =>
    obtain rfl : b = a := by simpa using hfirst
    refine .inl ((hw.closeClient_none hopen).mpr ⟨b, htimer, .inl ⟨d, htimers⟩⟩)
  | b :: d :: f :: ys =>
    obtain rfl : b = a := by simpa using hfirst
    obtain ⟨l', hdel, hhead', t, ht, hprev⟩ := delTimer_head_third h.holds
    -- the client of the third timer is caught next
    obtain ⟨s', hs'⟩ : ∃ s', ({ s with clock := now } : Server).closeClient sockfd = some s' := by
      simp [Server.closeClient, Server.cbFunc, htimer, hdel]
    have hl : s'.timerLst = l' := by
      simp only [Server.closeClient, Server.cbFunc, htimer, ne_eq, reduceCtorEq, not_false_eq_true,
        if_true, hdel, Option.bind_eq_bind, Option.bind_some] at hs'
      rw [← Option.some.inj hs']
    obtain ⟨b', hb', htidy, -⟩ := hw.closeClient hopen hs'
    obtain rfl : b = b' := Option.some.inj (htimer.symm.trans hb')
    rw [List.erase_cons_head] at htidy
    have hnd := htidy.holds.nodup
    obtain ⟨fd, c', hf⟩ := htidy.timer f (by simp)
    have hopen' : s'.conns fd ≠ none := by simp [hf.conn]
    have hfd : d ≠ f := by
      rintro rfl
      simp at hnd
    refine .inr ⟨s', .recv fd .eof s'.clock, hs', ⟨hopen', le_refl _⟩, ?_⟩
    refine ((htidy.wait (le_refl _)).closeClient_none hopen').mpr ⟨f, ?_, .inr ⟨?_, t, ?_, hprev⟩⟩
    · show (s'.users fd).timer = some f
      rw [hf.user]
    · show s'.timerLst.head ≠ some f
      rw [hl, hhead']
      simpa using hfd
    · show s'.timerLst.heap f = some t
      rw [hl, ht]

instance (s : Server) (e : Event) : Decidable (KeepsHead s e) :=
  decidable_of_iff ((e.closes.bind fun sockfd => (s.users sockfd).timer).all fun a =>
      s.timerLst.head = some a → s.timerLst.timers = [a]) (by
    unfold KeepsHead
    cases e.closes with
    | none => simp
    | some sockfd =>
      cases h : (s.users sockfd).timer with
      | none => simp [h]
      | some a => simpa [h] using imp_iff_not_or.symm)

end LinuxServer.IdleServer
