import LinuxServer.ShmChatTraffic
import LinuxServer.ShmChatStop

/-!
# What one child of the chat server hears of another

The line of a pair of children over all runs: the notifications that the second hears are
those of the first, in order and at most once, and without gaps where the sends get through
and the parent reads a pipe to the end before it closes it.  What is sent to a client for a
notification is another matter: a notification has only the number of a segment, which may
have been written to since.
-/

namespace LinuxServer.ShmChat

variable {s s' : Server} {c k l : ℕ} {n : Notification}

/-! ## Every step -/

theorem mem_announced {e : Event} (h : n ∈ s.announced k e) : n.origin = k := by
  cases e with
  | childStep l ok =>
    simp only [Server.announced] at h
    split at h
    · rw [List.mem_singleton.mp h]
    · simp at h
  | _ => simp [Server.announced] at h

theorem cursor_forward (h : s.cursor = none) {fd j : ℤ} {rest : List ℤ} : s.pc ≠ .forward n fd j rest := by
  intro hpc
  simp [Server.cursor, hpc] at h

theorem Routed.still (h : Routed s) (hs : Still s s') : Routed s' := by
  refine ⟨fun k n hn => ?_, fun n fd j rest hpc => ?_, fun c n hn => ?_⟩
  · rcases hs.load k with hk | ⟨-, hk⟩ <;> simp only [Child.load, Prod.mk.injEq] at hk
    · exact h.up k n (hk.1 ▸ hn)
    · simp [hk.1] at hn
  · rcases hs.parent with ⟨-, hno⟩ | ⟨hpc', hsame⟩
    · exact absurd hpc (cursor_forward hno)
    · rw [hsame.files]
      exact h.forward n fd j rest (hpc' ▸ hpc)
  · rcases hs.load c with hc | ⟨-, hc⟩
    · rw [received_of_load hs.delivered hc] at hn
      exact h.received c n hn
    · simp only [Child.load, Prod.mk.injEq] at hc
      refine h.received c n ?_
      rw [Server.received, hs.delivered, hc.2.1, hc.2.2] at hn
      rw [Server.received, List.append_assoc]
      exact List.mem_append_left _ (by simpa using hn)

theorem Routed.parent {sent : Bool} (h : Routed s) (hr : Roster s) (hm : ParentTraffic s sent s') :
    Routed s' := by
  refine ⟨fun k n hn => h.up k n (hm.up hr h k hn), fun n fd j rest hpc => ?_, fun c n hn => ?_⟩
  · cases hm with
    | still s' hs hdelivered hchild hno hno' => exact absurd hpc (cursor_forward hno')
    | takes fd' rest' l m q hpc' hfile hqueue =>
      simp only [ParentPc.forward.injEq] at hpc
      obtain ⟨rfl, rfl, rfl, rfl⟩ := hpc
      have hm : m.origin = l := h.up l m (by rw [hqueue]; exact List.mem_cons_self)
      exact ⟨le_refl _, by rw [hm]; exact hfile⟩
    | sends m fd' j' rest' hpc' hj =>
      simp only [ParentPc.forward.injEq] at hpc
      obtain ⟨rfl, rfl, rfl, rfl⟩ := hpc
      obtain ⟨h0, hfile⟩ := h.forward m fd' j' rest' hpc'
      obtain ⟨l, -, -, hto⟩ := sends_entry hr h hpc' hj sent
      refine ⟨by omega, ?_⟩
      rw [hto]
      split <;> exact hfile
    | ends m fd' j' rest' hpc' hj => simp at hpc
  · rcases hm.received hr h c hn with hold | hne
    · exact h.received c n hold
    · exact hne

theorem routed_step {e : Event} (h : Routed s) (hr : Roster s) (hok : Legal s e)
    (hstep : step s e = some s') : Routed s' := by
  have hchild : ∀ {t : Server}, (∀ k, ∀ n ∈ (t.child k).up.queue, n.origin = k) → t.pc = s.pc →
      t.files = s.files → (∀ c, (t.received c).Sublist (s.received c)) → Routed t := by
    intro t hup hpc hfiles hreceived
    refine ⟨hup, fun n fd j rest hf => ?_, fun c n hn => h.received c n ((hreceived c).subset hn)⟩
    rw [hfiles]
    exact h.forward n fd j rest (hpc ▸ hf)
  cases e with
  | childStep l ok =>
    have hm := childStep_traffic hstep
    have hmove := childStep_move hstep
    refine hchild (fun k n hn => ?_) (congrArg Prod.fst hmove.control) hmove.same.files
      fun c => (hm.received c).1
    rcases List.mem_append.mp ((hm.up k).1.subset hn) with hold | hnew
    · exact h.up k n hold
    · exact mem_announced hnew
  | childDies l =>
    obtain ⟨-, rfl⟩ : (s.child l).pc.running = true ∧ s.childDies l = s' := by simpa [step] using hstep
    refine hchild (fun k n hn => ?_) rfl rfl fun c => (received_childDies c).1
    refine h.up k n ?_
    rcases eq_or_ne k l with rfl | hk
    · simpa [Server.childDies, Server.setChild, Port.arrive] using hn
    · simpa [Server.childDies, Server.setChild, hk] using hn
  | parentStep sent => exact h.parent hr (parentStep_traffic hstep)
  | _ => exact h.still (still_step hok hstep (by simp) (by simp) (by simp))

/-! ## The ends of the pipes -/

/-- The parent ends behind a batch, once `stop_server` is set. -/
theorem ended_step {e : Event} (h : step s e = some s') : s'.pc.ended = true ↔
    s.pc.ended = true ∨ (∃ sent, e = .parentStep sent) ∧ s.pc = .batch [] ∧ s.stopServer = true := by
  cases control_move h with
  | same e s' hs hjoin =>
    simp only [Server.control, Prod.mk.injEq] at hs
    rw [hs.1]
    refine ⟨.inl, fun hended => hended.elim id ?_⟩
    rintro ⟨⟨sent, rfl⟩, hpc, hstop⟩
    obtain rfl : { s with pc := .done } = s' := by simpa [step, Server.parentStep, hpc, hstop] using h
    simp [hpc] at hs
  | wait ready s' hpc hs | accept result rest s' hpc hs =>
    simp only [Server.control, Prod.mk.injEq] at hs
    simp [hs.1, hpc, ParentPc.ended]
  | reap l sigs rest hpc => simp [(reap_control l s).1, hpc, ParentPc.ended]
  | reaped sigs rest hpc => simp [hpc, ParentPc.ended]
  | parent sent s' hm =>
    cases hm with
    | again hpc => cases hstop : s.stopServer <;> simp [hpc, ParentPc.ended]
    | signalsEmpty rest hpc | signalsRead rest sigs hpc | ignore fd rest hpc | pipeRead fd rest l n hpc
      | signalsEnd rest hpc | chld sigs rest hpc | stop sig sigs rest hpc | other sigs rest hpc
      | skip n fd j rest hpc | send n fd j rest hpc | forwarded n fd j rest hpc =>
      simp [hpc, ParentPc.ended]

/-- Only `waitpid` reaps a child, and only a new child takes the place of a reaped one. -/
theorem reaped_step {e : Event} (hr : Roster s) (hok : Legal s e) (h : step s e = some s') :
    ((s'.child k).pc.isReaped = true → (s.child k).pc.isReaped = true ∨ e = .waitpid (some k)) ∧
      ((s.child k).pc.isReaped = true → (s'.child k).pc.isReaped = true ∨ (s'.child k).up.queue = []) := by
  cases roster_move h with
  | same e s' hs =>
    rw [hs.reaped]
    exact ⟨.inl, .inl⟩
  | forkFails connfd pipefd0 pipefd1 s' hcount hs =>
    rw [hs.reaped]
    exact ⟨.inl, .inl⟩
  | join connfd pipefd0 pipefd1 pid s' hcount hs =>
    have hreaped : (s'.child k).pc.isReaped = ((joined s connfd pipefd0 pipefd1 pid).child k).pc.isReaped :=
      hs.reaped k
    rw [hreaped]
    rcases eq_or_ne k s.forked with rfl | hk
    · rw [joined_child_self]
      refine ⟨fun hno => absurd hno (by simp [Server.newChild, ChildPc.isReaped]), fun _ => .inr ?_⟩
      obtain ⟨rest, -, rfl⟩ := accept_eq h
      have hlimit : ¬ userLimit ≤ s.userCount := by omega
      simp [Server.acceptBranch, hlimit, Server.openPipe, Server.join, Server.newChild, Port.empty]
    · rw [joined_child_of_ne _ _ _ _ hk]
      exact ⟨.inl, .inl⟩
  | reap l =>
    rw [reap_eq hr (unreaped_of_zombie hok.1 hok.2)]
    rcases eq_or_ne k l with rfl | hkl
    · exact ⟨fun _ => .inr rfl, fun _ => .inl (by simp [Server.setChild, ChildPc.isReaped])⟩
    · simp only [Server.setChild, Function.update_of_ne hkl]
      exact ⟨.inl, .inl⟩

/-- A step that loses nothing closes the pipe of `k` only when it is empty, and nothing is
sent to a closed end. -/
theorem Lossless.shut {e : Event} (hloss : Lossless k s e) (hr : Roster s) (hok : Legal s e)
    (h : step s e = some s') (hshut : s'.shut k = true) :
    s.waiting k = [] ∧ s.announced k e = [] := by
  have hempty : (s.child k).up.queue = [] → s.waiting k = [] := fun hq => by simp [Server.waiting, hq]
  rw [Server.shut, Bool.or_eq_true, ended_step h] at hshut
  rcases hshut.imp_right (reaped_step hr hok h).1 with (hended | ⟨⟨sent, rfl⟩, hpc, hstop⟩) | hreaped | rfl
  · refine ⟨by simp [Server.waiting, Server.shut, hended], ?_⟩
    cases e with
    | childStep l ok =>
      refine if_neg fun ⟨hl, htell⟩ => ?_
      have := (hloss hl htell).2
      simp [hended] at this
    | _ => rfl
  · exact ⟨hempty (hloss.2 hpc hstop), rfl⟩
  · refine ⟨by simp [Server.waiting, Server.shut, hreaped], ?_⟩
    cases e with
    | childStep l ok =>
      refine if_neg fun ⟨hl, htell⟩ => ?_
      cases hpc : (s.child k).pc <;> simp [hpc, ChildPc.isReaped, ChildPc.telling] at hreaped htell
    | _ => rfl
  · exact ⟨hempty (hloss rfl), rfl⟩

/-- Closed ends stay closed, but for a new child. -/
theorem shut_step {e : Event} (hr : Roster s) (hok : Legal s e) (h : step s e = some s')
    (hshut : s.shut k = true) : s'.shut k = true ∨ (s'.child k).up.queue = [] := by
  rw [Server.shut, Bool.or_eq_true] at hshut ⊢
  rcases hshut with hended | hreaped
  · exact .inl (.inl ((ended_step h).mpr (.inl hended)))
  · exact ((reaped_step hr hok h).2 hreaped).imp_left .inr

/-- What waits in the pipe of `k` waits for the parent as long as its end is open. -/
theorem waiting_step {P : Prop} {e : Event} (hr : Roster s) (hok : Legal s e) (h : step s e = some s')
    (hP : P → Lossless k s e)
    (hup : Carried P (s'.child k).up.queue ((s.child k).up.queue ++ s.announced k e)) :
    Carried P (s'.waiting k) (s.waiting k ++ s.announced k e) := by
  by_cases hq : (s'.child k).up.queue = []
  · have hnone : s'.waiting k = [] := by simp [Server.waiting, hq]
    rw [hnone]
    refine ⟨List.nil_sublist _, fun hp => ?_⟩
    obtain ⟨h1, h2⟩ := List.append_eq_nil_iff.mp (hq ▸ hup.2 hp).symm
    simp [Server.waiting, h1, h2]
  cases hshut : s'.shut k with
  | true =>
    have hnone : s'.waiting k = [] := if_pos hshut
    rw [hnone]
    refine ⟨List.nil_sublist _, fun hp => ?_⟩
    obtain ⟨h1, h2⟩ := (hP hp).shut hr hok h hshut
    rw [h1, h2, List.append_nil]
  | false =>
    have hopen : ¬ s.shut k = true := fun hold =>
      (shut_step hr hok h hold).elim (by simp [hshut]) hq
    have hnew : s'.waiting k = (s'.child k).up.queue := if_neg (by simp [hshut])
    have hwas : s.waiting k = (s.child k).up.queue := if_neg hopen
    rw [hnew, hwas]
    exact hup

theorem waiting_same (hs : Same s s') (hended : s'.pc.ended = s.pc.ended)
    (hup : (s'.child k).up.queue = (s.child k).up.queue) : s'.waiting k = s.waiting k := by
  rw [Server.waiting, Server.waiting, Server.shut, Server.shut, hended, hs.reaped, hup]

/-! ## The line of two children -/

/-- The loop over the entries goes on, and the entry that it leaves is that of another child. -/
theorem carried_next {P : Prop} {i j : ℤ} (h : P → i ≠ j) :
    Carried P (if j + 1 ≤ i then [n] else []) (if j ≤ i then [n] else []) := by
  by_cases hj : j + 1 ≤ i
  · exact .of_eq (by rw [if_pos hj, if_pos (by omega)])
  · rw [if_neg hj]
    by_cases hj' : j ≤ i
    · exact .of_lost (List.nil_sublist _) fun hp => h hp (by omega)
    · exact .of_eq (by rw [if_neg hj'])

/-- A notification leaves the pipe, and the loop begins. -/
theorem line_takes {P : Prop} {fd : ℤ} {rest : List ℤ} {q : List Notification} (hr : Roster s) (hw : Routed s)
    (hpc : s.pc = .batch (fd :: rest)) (hfile : s.files fd = some (.pipe l))
    (hqueue : (s.child l).up.queue = n :: q)
    (hs : s' = { s.setChild l { s.child l with up := (s.child l).up.taken 1 } with
      pc := .forward n fd 0 rest })
    (hsame : Same s s') (hrunning : P → Unreaped s c) : Carried P (s'.line k c) (s.line k c) := by
  have horigin : n.origin = l := hw.up l n (by rw [hqueue]; exact List.mem_cons_self)
  have hnone : s.pending c = [] := by rw [Server.pending, hpc]
  have hpending : s'.pending c = if 0 ≤ slot s c then [n] else [] := by
    rw [← hsame.slot, hs]
    rfl
  have hreceived : s'.received c = s.received c := by
    rw [hs]
    rcases eq_or_ne c l with rfl | hcl
    · simp [Server.received, Server.setChild, Child.inbox]
    · simp [Server.received, Server.setChild, hcl]
  unfold Server.line
  rw [hreceived, hpending, hnone, List.append_nil]
  rcases eq_or_ne k l with rfl | hkl
  · have hreaped : (s.child k).pc.isReaped = false := (hr.unreaped fd k hfile).1.2
    have hwas : s.waiting k = n :: q := by
      simp [Server.waiting, Server.shut, hpc, ParentPc.ended, hreaped, hqueue]
    have hnow : s'.waiting k = q := by
      rw [Server.waiting, Server.shut, hsame.reaped, hreaped, hs]
      simp [ParentPc.ended, Server.setChild, Port.taken, hqueue]
    rw [hnow, hwas]
    by_cases hslot : 0 ≤ slot s c
    · refine .of_eq ?_
      simp [hslot, horigin]
    · refine .of_lost ?_ fun h => hslot (hr.slot_pos c (hrunning h))
      simp [hslot]
  · have hwaiting : s'.waiting k = s.waiting k :=
      waiting_same hsame (by rw [hs, hpc]; rfl) (by rw [hs]; simp [Server.setChild, hkl])
    have hne : n.origin ≠ k := by
      rw [horigin]
      exact hkl.symm
    refine .of_eq ?_
    rw [hwaiting]
    split <;> simp [hne]

/-- The child of entry `j` is told. -/
theorem line_told {P : Prop} {fd j : ℤ} {rest : List ℤ} (hr : Roster s) (hpc : s.pc = .forward n fd j rest)
    (hl : Unreaped s l) (hrun : (s.child l).pc.running = true) (hslot : slot s l = j)
    (hs : s' = { s.setChild l { s.child l with pipe := (s.child l).pipe.arrive [n] } with
      pc := .forward n fd (j + 1) rest })
    (hsame : Same s s') (hrunning : P → Unreaped s c) : Carried P (s'.line k c) (s.line k c) := by
  have hold : s.pending c = if j ≤ slot s c then [n] else [] := by rw [Server.pending, hpc]
  have hnew : s'.pending c = if j + 1 ≤ slot s c then [n] else [] := by
    rw [← hsame.slot, hs]
    rfl
  have hwaiting : s'.waiting k = s.waiting k := by
    refine waiting_same hsame (by rw [hs, hpc]; rfl) ?_
    rw [hs]
    rcases eq_or_ne k l with rfl | hkl
    · simp [Server.setChild]
    · simp [Server.setChild, hkl]
  unfold Server.line
  rw [hwaiting, hnew, hold]
  rcases eq_or_ne c l with rfl | hcl
  · -- the entry is that of `c`
    have hreceived : s'.received c = s.received c ++ [n] := by
      rw [hs]
      simp [Server.received, Server.setChild, Child.inbox, hrun, Port.arrive]
    refine .of_eq ?_
    rw [hreceived, hslot, if_neg (by omega), if_pos (le_refl j), List.append_nil]
  · have hreceived : s'.received c = s.received c := by
      rw [hs]
      simp [Server.received, Server.setChild, hcl]
    rw [hreceived]
    refine .append (.filter (.append (.of_eq rfl) (carried_next ?_)) _) (.of_eq rfl)
    intro hp heq
    exact hcl (hr.slot_inj (hrunning hp) hl (heq.trans hslot.symm))

/-- The child of entry `j` is not told, because it is the sender, is gone, or the send fails. -/
theorem line_passed {sent : Bool} {fd j : ℤ} {rest : List ℤ} (hr : Roster s)
    (hpc : s.pc = .forward n fd j rest) (hl : Unreaped s l) (hslot : slot s l = j)
    (hcond : ¬ (l ≠ n.origin ∧ sent = true ∧ (s.child l).pc.running = true)) (hck : c ≠ k) :
    Carried (sent = true ∧ c < s.forked ∧ (s.child c).pc.running = true)
      (Server.line k c { s with pc := .forward n fd (j + 1) rest }) (s.line k c) := by
  have hold : s.pending c = if j ≤ slot s c then [n] else [] := by rw [Server.pending, hpc]
  have hnew : Server.pending { s with pc := .forward n fd (j + 1) rest } c =
      if j + 1 ≤ slot s c then [n] else [] := rfl
  have hreceived : Server.received { s with pc := .forward n fd (j + 1) rest } c = s.received c := rfl
  have hwaiting : Server.waiting { s with pc := .forward n fd (j + 1) rest } k = s.waiting k :=
    waiting_same (.of_eq rfl) (by rw [hpc]; rfl) rfl
  unfold Server.line
  rw [hreceived, hnew, hold, hwaiting]
  refine .append ?_ (.of_eq rfl)
  rcases eq_or_ne n.origin k with horigin | horigin
  · refine .filter (.append (.of_eq rfl) (carried_next ?_)) _
    rintro ⟨hsent, hforked, hrun⟩ heq
    obtain rfl : c = l :=
      hr.slot_inj (unreaped_of_running hforked hrun) hl (heq.trans hslot.symm)
    exact hcond ⟨by rw [horigin]; exact hck, hsent, hrun⟩
  · refine .of_eq ?_
    split <;> split <;> simp [horigin]

/-- The parent moves a notification of `k` along its loop and into the pipe of `c`. -/
theorem parentStep_line {sent : Bool} (h : s.parentStep sent = some s') (hr : Roster s) (hw : Routed s)
    (hck : c ≠ k) :
    Carried (Lossless k s (.parentStep sent) ∧ c < s.forked ∧ (s'.child c).pc.running = true)
      (s'.line k c) (s.line k c) := by
  have hs : Same s s' := (parentStep_move h).same
  have hrunning : Lossless k s (.parentStep sent) ∧ c < s.forked ∧ (s'.child c).pc.running = true →
      Unreaped s c := fun h => unreaped_of_running h.2.1 (hs.running c h.2.2)
  cases parentStep_traffic h with
  | still s' hs' hdelivered hchild hno hno' =>
    have hstep : step s (.parentStep sent) = some s' := h
    have hup : Carried (Lossless k s (.parentStep sent) ∧ c < s.forked ∧ (s'.child c).pc.running = true)
        (s'.child k).up.queue ((s.child k).up.queue ++ s.announced k (.parentStep sent)) :=
      .of_eq (by rw [hchild]; exact (List.append_nil _).symm)
    have hok : Legal s (.parentStep sent) := trivial
    have hwaiting := waiting_step hr hok hstep And.left hup
    unfold Server.line
    rw [received_of_load hdelivered (by rw [hchild]), pending_none hno, pending_none hno']
    exact .append (.of_eq rfl) (hwaiting.trans (.of_eq (List.append_nil _)))
  | takes fd rest l n q hpc hfile hqueue => exact line_takes hr hw hpc hfile hqueue rfl hs hrunning
  | sends n fd j rest hpc hj =>
    obtain ⟨l, hl, hslot, hto⟩ := sends_entry hr hw hpc hj sent
    rw [hto] at hs hrunning ⊢
    by_cases hcond : l ≠ n.origin ∧ sent ∧ (s.child l).pc.running
    · rw [if_pos hcond] at hs hrunning ⊢
      exact line_told hr hpc hl hcond.2.2 hslot rfl hs hrunning
    · rw [if_neg hcond]
      exact (line_passed hr hpc hl hslot hcond hck).mono fun h => ⟨h.1.1, h.2⟩
  | ends n fd j rest hpc hj =>
    have hold : s.pending c = if j ≤ slot s c then [n] else [] := by rw [Server.pending, hpc]
    have hnew : Server.pending { s with pc := .batch rest } c = [] := rfl
    have hreceived : Server.received { s with pc := .batch rest } c = s.received c := rfl
    have hwaiting : Server.waiting { s with pc := .batch rest } k = s.waiting k :=
      waiting_same (.of_eq rfl) (by rw [hpc]; rfl) rfl
    unfold Server.line
    rw [hreceived, hnew, hold, hwaiting]
    refine .append (.filter (.append (.of_eq rfl) ?_) _) (.of_eq rfl)
    by_cases hj' : j ≤ slot s c
    · refine .of_lost (List.nil_sublist _) fun h => ?_
      have := hr.slot_lt c (hrunning h)
      omega
    · exact .of_eq (by rw [if_neg hj'])

theorem Still.line_step {P : Prop} {e : Event} (hs : Still s s') (hr : Roster s) (hok : Legal s e)
    (h : step s e = some s') (hsilent : s.announced k e = [])
    (hP : P → Lossless k s e ∧ k < s.forked ∧ c < s.forked) : Carried P (s'.line k c) (s.line k c) := by
  have hup : Carried P (s'.child k).up.queue ((s.child k).up.queue ++ s.announced k e) := by
    rw [hsilent, List.append_nil]
    exact (hs.up k).mono fun hp => (hP hp).2.1
  have hwaiting := waiting_step hr hok h (fun hp => (hP hp).1) hup
  rw [hsilent, List.append_nil] at hwaiting
  exact hs.line hwaiting fun hp => (hP hp).2.2

/-- Every step carries on what is on its way from `k` to `c`, and what `k` has received. -/
theorem line_step {e : Event} (hr : Roster s) (hw : Routed s) (hck : c ≠ k) (hok : Legal s e)
    (h : step s e = some s') :
    Carried (Lossless k s e ∧ (k < s.forked ∧ c < s.forked) ∧ (s'.child c).pc.running = true)
      (s'.line k c) (s.line k c ++ s.announced k e) := by
  cases e with
  | childStep l ok =>
    have hm := childStep_traffic h
    have hmove := childStep_move h
    have hpending : s'.pending c = s.pending c := pending_same hmove.same (congrArg Prod.fst hmove.control) c
    unfold Server.line
    rw [hpending, List.append_assoc]
    refine .append (.filter (.append ?_ (.of_eq rfl)) _) ?_
    · exact (hm.received c).mono fun h => h.2.2
    · exact waiting_step hr hok h And.left ((hm.up k).mono And.left)
  | childDies l =>
    obtain ⟨hrun, rfl⟩ : (s.child l).pc.running = true ∧ s.childDies l = s' := by simpa [step] using h
    have hup : ((s.childDies l).child k).up.queue = (s.child k).up.queue := by
      rcases eq_or_ne k l with rfl | hk
      · simp [Server.childDies, Server.setChild, Port.arrive]
      · simp [Server.childDies, Server.setChild, hk]
    have hpending : (s.childDies l).pending c = s.pending c := pending_same (same_childDies hrun) rfl c
    have hwaiting : (s.childDies l).waiting k = s.waiting k := waiting_same (same_childDies hrun) rfl hup
    unfold Server.line Server.announced
    rw [hwaiting, hpending, List.append_nil]
    refine .append (.filter (.append ?_ (.of_eq rfl)) _) (.of_eq rfl)
    exact (received_childDies c).mono fun h => h.2.2
  | parentStep sent =>
    unfold Server.announced
    rw [List.append_nil]
    exact (parentStep_line h hr hw hck).mono fun h => ⟨h.1, h.2.1.2, h.2.2⟩
  | _ =>
    have hm := still_step hok h (by simp) (by simp) (by simp)
    refine (hm.line_step hr hok h rfl fun hp => ?_).trans (.of_eq (List.append_nil _).symm)
    exact ⟨hp.1, hp.2.1⟩

/-! ## Every run -/

/-- Dead children stay dead. -/
theorem running_step {e : Event} (hr : Roster s) (hok : Legal s e) (h : step s e = some s')
    (hc : c < s.forked) (hrun : (s'.child c).pc.running = true) : (s.child c).pc.running = true := by
  cases roster_move h with
  | same e s' hs => exact hs.running c hrun
  | forkFails connfd pipefd0 pipefd1 s' hcount hs => exact hs.running c hrun
  | join connfd pipefd0 pipefd1 pid s' hcount hs =>
    have hrun' : ((joined s connfd pipefd0 pipefd1 pid).child c).pc.running = true := hs.running c hrun
    rwa [joined_child_of_ne _ _ _ _ (by omega)] at hrun'
  | reap l =>
    rw [reap_eq hr (unreaped_of_zombie hok.1 hok.2)] at hrun
    rcases eq_or_ne c l with rfl | hcl
    · simp [Server.setChild, ChildPc.running] at hrun
    · simpa [Server.setChild, hcl] using hrun

theorem forked_step {e : Event} (hr : Roster s) (hok : Legal s e) (h : step s e = some s') :
    s.forked ≤ s'.forked := (idx_step hr hok h).1

theorem routed_init (h : Init s) : Routed s := by
  obtain ⟨hpc, -, -, -, -, -, -, -, -, -, -, -, hdelivered, hchild⟩ := h
  refine ⟨fun k n hn => ?_, fun n fd j rest hf => ?_, fun c n hn => ?_⟩
  · rw [hchild k] at hn
    exact absurd hn (by simp [Server.newChild, Port.empty])
  · rw [hpc] at hf
    cases hf
  · rw [Server.received, hdelivered, hchild c] at hn
    exact absurd hn (by simp [Server.newChild, Port.empty, Child.inbox, ChildPc.inHand, ChildPc.running])

theorem routed_reach (h : Reach Init Legal step s) : Roster s ∧ Routed s :=
  h.invariant (I := fun s => Roster s ∧ Routed s) (fun _ hi => ⟨roster_init hi, routed_init hi⟩)
    fun _ _ _ hi hok hs => ⟨roster_step hi.1 hok hs, routed_step hi.2 hi.1 hok hs⟩

/-- The notifications of the child `k` that have come to the child `c` or are on their way:
in every run they are those there were and those of what `k` received since, in order,
perhaps with gaps; and without gaps if the sends get through, `c` does not die, and the
parent does not close the pipe of `k` before it has read it to the end. -/
theorem forwarded_in_order {t : Server} {es : List Event} (h : Reach Init Legal step s)
    (hrun : Exec Legal step s es t) (hck : c ≠ k) (hk : k < s.forked) (hc : c < s.forked) :
    Carried (Exec (fun s e => Legal s e ∧ Lossless k s e) step s es t ∧ (t.child c).pc.running = true)
      (t.line k c) (s.line k c ++ brought step (Server.announced k) s es) := by
  obtain ⟨hr, hw⟩ := routed_reach h
  refine hrun.carried (Server.line k c)
    (I := fun s => Roster s ∧ Routed s ∧ k < s.forked ∧ c < s.forked)
    (D := fun s => (s.child c).pc.running = true) (fun s e s' hi hok hs => ?_)
    (fun s e s' hi hok hs hd => running_step hi.1 hok hs hi.2.2.2 hd)
    (fun s e s' hi hok hs => ?_) ⟨hr, hw, hk, hc⟩
  · have hle := forked_step hi.1 hok hs
    exact ⟨roster_step hi.1 hok hs, routed_step hi.2.1 hi.1 hok hs, by omega, by omega⟩
  · exact (line_step hi.1 hi.2.1 hck hok hs).mono fun h => ⟨h.1, hi.2.2, h.2⟩

/-- Two clients have joined. -/
def twoJoined : Server :=
  (play Legal step start (joinEvents 7 8 9 (some 100) ++ joinEvents 7 9 10 (some 101))).get (by decide)

/-- What the first of them sends comes to the second. -/
def forwardEvents : List Event :=
  [.childStep 0 true, .clientData 0 [104, 105], .childWait 0 [.conn], .childStep 0 true, .childStep 0 true,
    .childStep 0 true, .epollWait [8], .parentStep true, .parentStep true, .parentStep true,
    .parentStep true, .parentStep true, .childStep 1 true, .childWait 1 [.pipe], .childStep 1 true,
    .childStep 1 true]

theorem forwarded_in_order_two : ∃ t, Exec Legal step twoJoined forwardEvents t ∧ t.delivered.length = 1 ∧
    Carried (Exec (fun s e => Legal s e ∧ Lossless 0 s e) step twoJoined forwardEvents t ∧
      (t.child 1).pc.running = true) (t.line 0 1)
      (twoJoined.line 0 1 ++ brought step (Server.announced 0) twoJoined forwardEvents) := by
  let t := (play Legal step twoJoined forwardEvents).get (by decide)
  have hrun : Exec Legal step twoJoined forwardEvents t := exec_of_play (Option.some_get _).symm
  have h0 : Reach Init Legal step twoJoined := reach_of_play init_start (Option.some_get _).symm
  exact ⟨t, hrun, by decide, forwarded_in_order h0 hrun (by decide) (by decide) (by decide)⟩

/-! ## The order of what is delivered -/

theorem telling_setChild {d : Child} (ht : ((s.setChild l d).child k).pc.telling = true)
    (h : d.pc.telling = true → (s.child l).pc.telling = true) : (s.child k).pc.telling = true := by
  rcases eq_or_ne k l with rfl | hk
  · exact h (by simpa [Server.setChild] using ht)
  · simpa [Server.setChild, hk] using ht

/-- A child is about to tell of a message because it has stored one. -/
theorem telling_step {e : Event} (hok : Legal s e) (h : step s e = some s') (hk : k < s.forked)
    (ht : (s'.child k).pc.telling = true) :
    (s.child k).pc.telling = true ∧ s.announced k e = [] ∨
      s.writes (s.child k).idx < s'.writes (s.child k).idx := by
  have hstays : (∀ l ok, e ≠ .childStep l ok) → (s.child k).pc.telling = true →
      (s.child k).pc.telling = true ∧ s.announced k e = [] := by
    intro he htell
    refine ⟨htell, ?_⟩
    cases e with
    | childStep l ok => exact absurd rfl (he l ok)
    | _ => rfl
  cases e with
  | connect | signal =>
    obtain rfl := by simpa [step] using h
    exact .inl (hstays (by simp) ht)
  | clientData l | childTermHandler l =>
    obtain rfl := by simpa [step] using h
    exact .inl (hstays (by simp) (telling_setChild ht fun h => h))
  | sigHandler =>
    simp only [step] at h
    split at h
    · obtain rfl := by simpa using h
      exact .inl (hstays (by simp) ht)
    · cases h
  | childDies l =>
    obtain ⟨hrun, rfl⟩ : (s.child l).pc.running = true ∧ s.childDies l = s' := by simpa [step] using h
    have hdead : ((s.setChild l { s.child l with
        pc := .zombie, up := (s.child l).up.arrive [] }).child k).pc.telling = true := ht
    exact .inl (hstays (by simp) (telling_setChild hdead fun h => by cases h))
  | epollWait ready =>
    obtain ⟨-, rfl⟩ := epollWait_eq h
    have hpc : ((ready.foldl Server.report s).child k).pc = (s.child k).pc :=
      foldl_report (R := fun s t => (t.child k).pc = (s.child k).pc) (fun _ => rfl)
        (fun h h' => h'.trans h) (fun s fd => by
          rcases report_cases s fd with ⟨-, h⟩ | ⟨-, h⟩ | ⟨l, -, h⟩ | h <;> rw [h]
          rcases eq_or_ne k l with rfl | hkl
          · simp [Server.setChild]
          · simp [Server.setChild, hkl]) ready s
    exact .inl (hstays (by simp) (hpc ▸ ht))
  | accept result =>
    obtain ⟨rest, -, rfl⟩ := accept_eq h
    have hchild : (s.acceptBranch result).child k = s.child k := by
      cases result with
      | failed => rfl
      | connected connfd pipefd0 pipefd1 pid =>
        simp only [Server.acceptBranch]
        split
        · rfl
        · cases pid with
          | none => rfl
          | some pid =>
            have hne : k ≠ s.forked := by omega
            simp [Server.openPipe, Server.join, hne]
    have ht' : ((s.acceptBranch result).child k).pc.telling = true := ht
    exact .inl (hstays (by simp) (hchild ▸ ht'))
  | waitpid l =>
    cases l with
    | none =>
      obtain ⟨sigs, rest, -, rfl⟩ := waitpid_none_eq h
      exact .inl (hstays (by simp) ht)
    | some l =>
      obtain ⟨-, rfl⟩ := waitpid_some_eq h
      have hset : ((s.setChild l { s.child l with pc := .reaped }).child k).pc.telling = true := by
        unfold Server.reap at ht
        simp only at ht
        split at ht <;> exact ht
      exact .inl (hstays (by simp) (telling_setChild hset fun h => by cases h))
  | parentStep sent =>
    refine .inl (hstays (by simp) ?_)
    cases parentStep_move h with
    | pipeRead fd rest l n =>
      have hset : ((s.setChild l { s.child l with
          up := (s.child l).up.taken 1 }).child k).pc.telling = true := ht
      exact telling_setChild hset fun h => h
    | stop => rcases stop_cases s with hs | hs <;> rw [hs] at ht <;> exact ht
    | send n fd j =>
      have ht' : ((s.forwardTo n j).child k).pc.telling = true := ht
      rcases forwardTo_cases n j s with hs | ⟨l, hs⟩ <;> rw [hs] at ht'
      · exact ht'
      · exact telling_setChild ht' fun h => h
    | _ => exact ht
  | childWait l ready =>
    obtain ⟨-, rfl⟩ := childWait_eq h
    exact .inl (hstays (by simp) (telling_setChild ht fun h => by cases h))
  | childStep l ok =>
    rcases eq_or_ne k l with rfl | hkl
    · cases childStep_move h with
      | recvData rest bytes hpc hlen => exact .inr (by simp [Server.setChild, Server.store])
      | _ => simp [Server.childDies, Server.setChild, ChildPc.telling] at ht
    · have hsilent : s.announced k (.childStep l ok) = [] := if_neg fun h => hkl h.1.symm
      refine .inl ⟨?_, hsilent⟩
      cases childStep_move h <;>
        simpa [Server.childDies, Server.setChild, Server.memset, Server.store, hkl] using ht

/-- The messages of `k` on their way to `c` or there were stored one after the other. -/
structure Stamped (s : Server) : Prop where
  fresh : ∀ k c, c ≠ k → ∀ n ∈ s.line k c, k < s.forked ∧ n.stamp ≤ s.writes (s.child k).idx ∧
    ((s.child k).pc.telling = true → n.stamp < s.writes (s.child k).idx)
  increasing : ∀ k c, c ≠ k → ((s.line k c).map (·.stamp)).Pairwise (· < ·)

theorem writes_le {e : Event} (h : step s e = some s') (i : ℤ) : s.writes i ≤ s'.writes i := by
  rcases written_step h i with ⟨-, hw⟩ | hw
  · exact hw.ge
  · exact hw.le

theorem announced_cases {e : Event} (hok : Legal s e) : s.announced k e = [] ∨
    ∃ n, s.announced k e = [n] ∧ n.stamp = s.writes (s.child k).idx ∧ k < s.forked ∧
      (s.child k).pc.telling = true := by
  cases e with
  | childStep l ok =>
    by_cases htell : l = k ∧ (s.child k).pc.telling = true
    · refine .inr ⟨_, if_pos htell, rfl, ?_, htell.2⟩
      have hl : l < s.forked := hok
      exact htell.1 ▸ hl
    · exact .inl (if_neg htell)
  | _ => exact .inl rfl

theorem Stamped.step {e : Event} (h : Stamped s) (hr : Roster s) (hw : Routed s) (hok : Legal s e)
    (hstep : ShmChat.step s e = some s') : Stamped s' := by
  obtain ⟨hforked, hidx⟩ := idx_step hr hok hstep
  refine ⟨fun k c hck n hn => ?_, fun k c hck => ?_⟩
  · have hkept : k < s.forked → n.stamp ≤ s.writes (s.child k).idx →
        ((s.child k).pc.telling = true → s.announced k e = [] → n.stamp < s.writes (s.child k).idx) →
        k < s'.forked ∧ n.stamp ≤ s'.writes (s'.child k).idx ∧
          ((s'.child k).pc.telling = true → n.stamp < s'.writes (s'.child k).idx) := by
      intro hk hle hlt
      have hmono := writes_le hstep (s.child k).idx
      rw [hidx k hk]
      refine ⟨by omega, by omega, fun htell => ?_⟩
      rcases telling_step hok hstep hk htell with ⟨h1, h2⟩ | hstored
      · have := hlt h1 h2
        omega
      · omega
    rcases List.mem_append.mp ((line_step hr hw hck hok hstep).1.subset hn) with hold | hnew
    · obtain ⟨hk, hle, hlt⟩ := h.fresh k c hck n hold
      exact hkept hk hle fun h1 _ => hlt h1
    · rcases announced_cases (k := k) hok with hnone | ⟨m, hm, hstamp, hk, htell⟩
      · rw [hnone] at hnew
        exact absurd hnew (by simp)
      · rw [hm] at hnew hkept
        obtain rfl := List.mem_singleton.mp hnew
        exact hkept hk hstamp.le fun _ h2 => absurd h2 (by simp)
  · refine List.Pairwise.sublist ((line_step hr hw hck hok hstep).1.map _) ?_
    rw [List.map_append, List.pairwise_append]
    refine ⟨h.increasing k c hck, ?_, fun a ha b hb => ?_⟩
    · rcases announced_cases (k := k) hok with hnone | ⟨m, hm, -⟩
      · simp [hnone]
      · simp [hm]
    · obtain ⟨n, hn, rfl⟩ := List.mem_map.mp ha
      rcases announced_cases (k := k) hok with hnone | ⟨m, hm, hstamp, hk, htell⟩
      · simp [hnone] at hb
      · obtain rfl : b = m.stamp := by simpa [hm] using hb
        rw [hstamp]
        exact (h.fresh k c hck n hn).2.2 htell

theorem stamped_init (h : Init s) : Stamped s := by
  obtain ⟨hpc, -, -, -, -, -, -, -, -, -, -, -, hdelivered, hchild⟩ := h
  have hline : ∀ k c, s.line k c = [] := by
    intro k c
    simp [Server.line, Server.received, Server.pending, Server.waiting, hpc, hdelivered, hchild,
      Server.newChild, Port.empty, Child.inbox, ChildPc.inHand]
  refine ⟨fun k c _ n hn => ?_, fun k c _ => ?_⟩
  · rw [hline] at hn
    exact absurd hn (by simp)
  · rw [hline]
    exact List.Pairwise.nil

end LinuxServer.ShmChat
