import LinuxServer.ShmChatRoster

/-!
# What a notification stands for

A notification carries the number of a segment, not what is in it.  By the time another
child sends the segment, its contents are those of the notification if nothing has
been written to it in between, and whatever was written otherwise.
-/

namespace LinuxServer.ShmChat

variable {s s' : Server} {k : ℕ} {n : Notification}

/-! ## The segments -/

/-- Segments do not overlap. -/
theorem not_inside {i j : ℤ} (hj : j ≠ i) (p : Fin bufferSize) {m : ℕ} (hm : m ≤ bufferSize) :
    ¬ (i * bufferSize ≤ j * bufferSize + p.val ∧ j * bufferSize + p.val < i * bufferSize + m) := by
  have hp := p.isLt
  generalize p.val = q at hp ⊢
  simp only [bufferSize] at hp hm ⊢
  omega

theorem segment_memset {i j : ℤ} (hj : j ≠ i) : (s.memset i).segment j = s.segment j := by
  funext p
  exact if_neg (not_inside hj p (Nat.le_refl _))

theorem segment_store {i j : ℤ} (hj : j ≠ i) {bytes : List UInt8} (hlen : bytes.length ≤ bufferSize) :
    (s.store i bytes).segment j = s.segment j := by
  funext p
  exact if_neg (not_inside hj p hlen)

/-- A segment is the same, or has been written to once more. -/
def Written (s s' : Server) (i : ℤ) : Prop :=
  (s'.segment i = s.segment i ∧ s'.writes i = s.writes i) ∨ s.writes i < s'.writes i

theorem Written.refl (s : Server) (i : ℤ) : Written s s i := .inl ⟨rfl, rfl⟩

/-- The shared memory, and how often each segment has been written to. -/
def Server.memory (s : Server) : (ℤ → UInt8) × (ℤ → ℕ) := (s.shareMem, s.writes)

theorem written_of_eq (h : s'.memory = s.memory) (i : ℤ) : Written s s' i := by
  simp only [Server.memory, Prod.mk.injEq] at h
  refine .inl ⟨?_, by rw [h.2]⟩
  funext p
  simp only [Server.segment, h.1]

theorem written_memset (i j : ℤ) : Written s (s.memset i) j := by
  rcases eq_or_ne j i with rfl | hj
  · exact .inr (by simp [Server.memset])
  · exact .inl ⟨segment_memset hj, by simp [Server.memset, hj]⟩

theorem written_store (i j : ℤ) {bytes : List UInt8} (hlen : bytes.length ≤ bufferSize) :
    Written s (s.store i bytes) j := by
  rcases eq_or_ne j i with rfl | hj
  · exact .inr (by simp [Server.store])
  · exact .inl ⟨segment_store hj hlen, by simp [Server.store, hj]⟩

theorem ChildMove.written (h : ChildMove s k s') (i : ℤ) : Written s s' i := by
  cases h with
  | clear => exact written_memset _ i
  | recvData _ bytes _ hlen => exact written_store _ i hlen
  | _ => exact written_of_eq rfl i

/-- Nothing was written to the shared memory and nothing sent from it. -/
def Quiet (s s' : Server) : Prop := s'.memory = s.memory ∧ s'.delivered = s.delivered

theorem Quiet.refl (s : Server) : Quiet s s := ⟨rfl, rfl⟩

theorem Quiet.trans {t : Server} (h1 : Quiet s s') (h2 : Quiet s' t) : Quiet s t :=
  ⟨h2.1.trans h1.1, h2.2.trans h1.2⟩

theorem ParentMove.quiet (h : ParentMove s s') : Quiet s s' := by
  cases h with
  | stop => rcases stop_cases s with h | h <;> rw [h] <;> exact ⟨rfl, rfl⟩
  | send n _ j => rcases forwardTo_cases n j s with h | ⟨k, h⟩ <;> rw [h] <;> exact ⟨rfl, rfl⟩
  | _ => exact ⟨rfl, rfl⟩

theorem report_quiet (s : Server) (fd : ℤ) : Quiet s (s.report fd) := by
  rcases report_cases s fd with ⟨-, h⟩ | ⟨-, h⟩ | ⟨k, -, h⟩ | h <;> rw [h] <;> exact ⟨rfl, rfl⟩

theorem foldl_report_quiet (ready : List ℤ) (s : Server) : Quiet s (ready.foldl Server.report s) :=
  foldl_report Quiet.refl Quiet.trans report_quiet ready s

theorem acceptBranch_quiet (result : Accepted) (s : Server) : Quiet s (s.acceptBranch result) := by
  cases result with
  | failed => exact .refl s
  | connected connfd pipefd0 pipefd1 pid =>
    simp only [Server.acceptBranch]
    split
    · exact ⟨rfl, rfl⟩
    · cases pid <;> exact ⟨rfl, rfl⟩

theorem reap_quiet (k : ℕ) (s : Server) : Quiet s (s.reap k) := by
  unfold Server.reap
  simp only
  split <;> exact ⟨rfl, rfl⟩

/-- Only the steps of a child use the shared memory. -/
theorem step_quiet {e : Event} (h : step s e = some s') :
    Quiet s s' ∨ ∃ k ok, e = .childStep k ok ∧ ChildMove s k s' := by
  cases e with
  | connect | signal | clientData | childTermHandler =>
    obtain rfl := by simpa [step] using h
    exact .inl ⟨rfl, rfl⟩
  | sigHandler | childDies =>
    simp only [step] at h
    split at h
    · obtain rfl := by simpa using h
      exact .inl ⟨rfl, rfl⟩
    · cases h
  | epollWait ready =>
    obtain ⟨-, rfl⟩ := epollWait_eq h
    exact .inl (foldl_report_quiet ready s)
  | accept result =>
    obtain ⟨rest, -, rfl⟩ := accept_eq h
    exact .inl (acceptBranch_quiet result s)
  | waitpid k =>
    cases k with
    | some k =>
      obtain ⟨-, rfl⟩ := waitpid_some_eq h
      exact .inl (reap_quiet k s)
    | none =>
      obtain ⟨sigs, rest, -, rfl⟩ := waitpid_none_eq h
      exact .inl ⟨rfl, rfl⟩
  | parentStep => exact .inl (parentStep_move h).quiet
  | childWait k ready =>
    obtain ⟨-, rfl⟩ := childWait_eq h
    exact .inl ⟨rfl, rfl⟩
  | childStep k ok => exact .inr ⟨k, ok, rfl, childStep_move h⟩

theorem written_step {e : Event} (h : step s e = some s') (i : ℤ) : Written s s' i := by
  rcases step_quiet h with hq | ⟨k, -, -, hm⟩
  · exact written_of_eq hq.1 i
  · exact hm.written i

/-! ## The notifications -/

/-- A notification is about the segment of the child it comes from, and its record of
the contents is right as long as nothing has been written there. -/
structure Good (s : Server) (n : Notification) : Prop where
  origin : n.origin < s.forked
  client : n.client = (s.child n.origin).idx
  stamp : n.stamp ≤ s.writes n.client
  snapshot : s.writes n.client = n.stamp → s.segment n.client = n.snapshot

/-- A notification in the hands of a child, or in its pipe. -/
def Carries (c : Child) (n : Notification) : Prop :=
  n ∈ c.up.queue ∨ n ∈ c.pipe.queue ∨ ∃ rest, c.pc = .got n rest

/-- A notification on its way. -/
def InFlight (s : Server) (n : Notification) : Prop :=
  (∃ k, Carries (s.child k) n) ∨ ∃ fd j rest, s.pc = .forward n fd j rest

/-- Joins add children and change none. -/
theorem idx_step {e : Event} (hr : Roster s) (hok : Legal s e) (h : step s e = some s') :
    s.forked ≤ s'.forked ∧ ∀ k < s.forked, (s'.child k).idx = (s.child k).idx := by
  cases roster_move h with
  | same e s' hs => exact ⟨by have := hs.forked; omega, fun k _ => hs.idx k⟩
  | forkFails connfd pipefd0 pipefd1 s' _ hs =>
    refine ⟨?_, fun k _ => hs.idx k⟩
    rw [hs.forked]
    exact Nat.le_refl _
  | join connfd pipefd0 pipefd1 pid s' _ hs =>
    refine ⟨?_, fun k hk => (hs.idx k).trans ?_⟩
    · rw [hs.forked]
      exact Nat.le_succ _
    · exact congrArg Child.idx (joined_child_of_ne connfd pipefd0 pipefd1 pid (by omega))
  | reap k =>
    have hk := unreaped_of_zombie hok.1 hok.2
    refine ⟨?_, fun l _ => (reap_pid hr hk l).2.2⟩
    rw [reap_eq hr hk]
    exact Nat.le_refl _

theorem Good.step {e : Event} (h : Good s n) (hr : Roster s) (hok : Legal s e)
    (hstep : ShmChat.step s e = some s') : Good s' n := by
  obtain ⟨hf, hi⟩ := idx_step hr hok hstep
  have hstamp := h.stamp
  have hw := written_step hstep n.client
  refine ⟨by have := h.origin; omega, h.client.trans (hi _ h.origin).symm, ?_, fun hs => ?_⟩
  · rcases hw with ⟨-, hw⟩ | hw <;> omega
  · -- a step that writes to the segment raises its count above the stamp
    rcases hw with ⟨h1, h2⟩ | hw
    · rw [h1, h.snapshot (h2 ▸ hs)]
    · omega

/-! ## What is in flight after a step -/

/-- What is in flight after one child has changed. -/
theorem inFlight_setChild {c : Child} {P : Prop} (h : InFlight (s.setChild k c) n)
    (hc : Carries c n → InFlight s n ∨ P) : InFlight s n ∨ P := by
  rcases h with ⟨l, hl⟩ | h
  · rcases eq_or_ne l k with rfl | hlk
    · exact hc (by simpa [Server.setChild] using hl)
    · exact .inl (.inl ⟨l, by simpa [Server.setChild, hlk] using hl⟩)
  · exact .inl (.inr h)

theorem inFlight_of_eq (h : InFlight s' n) (h1 : s'.child = s.child)
    (h2 : ∀ fd j rest, s'.pc ≠ .forward n fd j rest) : InFlight s n := by
  rcases h with ⟨k, hk⟩ | ⟨fd, j, rest, h⟩
  · exact .inl ⟨k, h1 ▸ hk⟩
  · exact absurd h (h2 fd j rest)

/-- A child passes on what it has, or makes a notification of its own. -/
theorem ChildMove.inFlight (h : ChildMove s k s') (hn : InFlight s' n) : InFlight s n ∨
    n = ⟨(s.child k).idx, k, s.segment (s.child k).idx, s.writes (s.child k).idx⟩ := by
  have hsame : ∀ {c : Child}, c.up.queue = (s.child k).up.queue → c.pipe.queue = (s.child k).pipe.queue →
      (∀ n rest, c.pc ≠ .got n rest) → Carries c n → InFlight s n ∨
        n = ⟨(s.child k).idx, k, s.segment (s.child k).idx, s.writes (s.child k).idx⟩ := by
    rintro c h1 h2 h3 (hc | hc | ⟨rest, hc⟩)
    · exact .inl (.inl ⟨k, .inl (h1 ▸ hc)⟩)
    · exact .inl (.inl ⟨k, .inr (.inl (h2 ▸ hc))⟩)
    · exact absurd hc (h3 n rest)
  cases h with
  | leave =>
    refine inFlight_setChild (k := k) (c := { s.child k with pc := .zombie, up := (s.child k).up.arrive [] })
      hn (hsame ?_ rfl (by simp))
    simp [Port.arrive]
  | pipeRead rest m hpc hqueue =>
    refine inFlight_setChild hn ?_
    rintro (hc | hc | ⟨rest', hc⟩)
    · exact .inl (.inl ⟨k, .inl hc⟩)
    · exact .inl (.inl ⟨k, .inr (.inl (List.mem_of_mem_drop hc))⟩)
    · -- the number just read was at the head of the pipe
      obtain ⟨rfl, -⟩ : m = n ∧ rest = rest' := by simpa using hc
      exact .inl (.inl ⟨k, .inr (.inl hqueue)⟩)
  | notify rest hpc =>
    refine inFlight_setChild hn ?_
    rintro (hc | hc | ⟨rest', hc⟩)
    · rcases List.mem_append.mp hc with hc | hc
      · exact .inl (.inl ⟨k, .inl hc⟩)
      · exact .inr (by simpa using hc)
    · exact .inl (.inl ⟨k, .inr (.inl hc)⟩)
    · simp at hc
  | deliver m rest =>
    exact inFlight_setChild (k := k) (c := { s.child k with pc := .batch rest }) hn (hsame rfl rfl (by simp))
  | clear rest =>
    exact inFlight_setChild (s := s) (k := k) (c := { s.child k with pc := .cleared rest }) hn
      (hsame rfl rfl (by simp))
  | recvData rest =>
    exact inFlight_setChild (s := s) (k := k)
      (c := { s.child k with pc := .received rest, conn := (s.child k).conn.taken (bufferSize - 1) }) hn
      (hsame rfl rfl (by simp))
  | _ => exact inFlight_setChild hn (hsame rfl rfl (by simp))

theorem ParentMove.inFlight (h : ParentMove s s') (hn : InFlight s' n) : InFlight s n := by
  cases h with
  | again => exact inFlight_of_eq hn rfl fun fd j rest => by simp only; split <;> simp
  | pipeRead fd rest k m hpc _ _ _ hqueue =>
    rcases hn with ⟨l, hl⟩ | ⟨fd', j, rest', hf⟩
    · rcases eq_or_ne l k with rfl | hlk
      · simp only [Server.setChild, Function.update_self] at hl
        rcases hl with hl | hl | hl
        · exact .inl ⟨l, .inl (List.mem_of_mem_drop hl)⟩
        · exact .inl ⟨l, .inr (.inl hl)⟩
        · exact .inl ⟨l, .inr (.inr hl)⟩
      · exact .inl ⟨l, by simpa [Server.setChild, hlk] using hl⟩
    · obtain ⟨rfl, -⟩ : m = n ∧ fd = fd' ∧ (0 : ℤ) = j ∧ rest = rest' := by simpa using hf
      exact .inl ⟨k, .inl hqueue⟩
  | stop sig sigs rest =>
    refine inFlight_of_eq hn ?_ (by simp)
    rcases stop_cases s with h | h <;> rw [h]
  | skip m fd j rest hpc =>
    rcases hn with hn | ⟨fd', j', rest', hf⟩
    · exact .inl hn
    · obtain ⟨rfl, -⟩ : m = n ∧ fd = fd' ∧ j + 1 = j' ∧ rest = rest' := by simpa using hf
      exact .inr ⟨fd, j, rest, hpc⟩
  | send m fd j rest hpc =>
    rcases hn with ⟨l, hl⟩ | ⟨fd', j', rest', hf⟩
    · by_cases hmn : n = m
      · exact .inr ⟨fd, j, rest, hmn ▸ hpc⟩
      · -- the child that is told has nothing new but `m`
        refine .inl ⟨l, ?_⟩
        simp only at hl
        rcases forwardTo_cases m j s with h | ⟨k, h⟩ <;> rw [h] at hl
        · exact hl
        · rcases eq_or_ne l k with rfl | hlk
          · simp only [Server.setChild, Function.update_self] at hl
            rcases hl with hl | hl | hl
            · exact .inl hl
            · exact .inr (.inl (by simpa [Port.arrive, hmn] using hl))
            · exact .inr (.inr hl)
          · simpa [Server.setChild, hlk] using hl
    · obtain ⟨rfl, -⟩ : m = n ∧ fd = fd' ∧ j + 1 = j' ∧ rest = rest' := by simpa using hf
      exact .inr ⟨fd, j, rest, hpc⟩
  | _ => exact inFlight_of_eq hn rfl (by simp)

theorem carries_report (s : Server) (fd : ℤ) (h : Carries ((s.report fd).child k) n) :
    Carries (s.child k) n := by
  rcases report_cases s fd with ⟨-, hs⟩ | ⟨-, hs⟩ | ⟨l, -, hs⟩ | hs <;> rw [hs] at h
  · exact h
  · exact h
  · rcases eq_or_ne k l with rfl | hkl
    · simpa [Server.setChild, Carries, Port.report] using h
    · simpa [Server.setChild, hkl] using h
  · exact h

theorem carries_foldl_report {ready : List ℤ} :
    Carries ((ready.foldl Server.report s).child k) n → Carries (s.child k) n :=
  foldl_report (R := fun s t => Carries (t.child k) n → Carries (s.child k) n) (fun _ => id)
    (fun h1 h2 h => h1 (h2 h)) carries_report ready s

theorem inFlight_step {e : Event} (hr : Roster s) (hok : Legal s e) (h : step s e = some s')
    (hn : InFlight s' n) : InFlight s n ∨ ∃ k < s.forked,
      n = ⟨(s.child k).idx, k, s.segment (s.child k).idx, s.writes (s.child k).idx⟩ := by
  cases e with
  | connect | signal =>
    obtain rfl := by simpa [step] using h
    exact .inl hn
  | clientData k | childTermHandler k =>
    obtain rfl := by simpa [step] using h
    exact inFlight_setChild hn fun hc => .inl (.inl ⟨k, hc⟩)
  | sigHandler =>
    simp only [step] at h
    split at h
    · obtain rfl := by simpa using h
      exact .inl hn
    · cases h
  | childDies k =>
    simp only [step] at h
    split at h
    · obtain rfl := by simpa using h
      refine inFlight_setChild (k := k)
        (c := { s.child k with pc := .zombie, up := (s.child k).up.arrive [] }) hn ?_
      rintro (hc | hc | ⟨rest, hc⟩)
      · exact .inl (.inl ⟨k, .inl (by simpa [Port.arrive] using hc)⟩)
      · exact .inl (.inl ⟨k, .inr (.inl hc)⟩)
      · simp at hc
    · cases h
  | epollWait ready =>
    obtain ⟨-, rfl⟩ := epollWait_eq h
    rcases hn with ⟨k, hk⟩ | ⟨fd, j, rest, hf⟩
    · exact .inl (.inl ⟨k, carries_foldl_report hk⟩)
    · simp at hf
  | accept result =>
    obtain ⟨rest, hpc, rfl⟩ := accept_eq h
    rcases hn with ⟨k, hk⟩ | ⟨fd, j, rest, hf⟩
    · refine .inl (.inl ⟨k, ?_⟩)
      simp only [Server.acceptBranch] at hk
      split at hk
      · exact hk
      · split at hk
        · exact hk
        · split at hk
          · exact hk
          next pid =>
            -- a new child has nothing in its pipes
            simp only [Server.join, Server.openPipe, Function.update_apply] at hk
            split at hk
            · simp [Carries, Server.newChild, Port.empty] at hk
            · exact hk
    · simp at hf
  | waitpid k =>
    cases k with
    | some k =>
      obtain ⟨⟨sigs, rest, hpc⟩, rfl⟩ := waitpid_some_eq h
      have hk := unreaped_of_zombie hok.1 hok.2
      rw [reap_eq hr hk] at hn
      refine inFlight_setChild (s := s) (k := k) (c := { s.child k with pc := .reaped }) hn ?_
      rintro (hc | hc | ⟨rest, hc⟩)
      · exact .inl (.inl ⟨k, .inl hc⟩)
      · exact .inl (.inl ⟨k, .inr (.inl hc)⟩)
      · simp at hc
    | none =>
      obtain ⟨sigs, rest, -, rfl⟩ := waitpid_none_eq h
      exact .inl (inFlight_of_eq hn rfl (by simp))
  | parentStep => exact .inl ((parentStep_move h).inFlight hn)
  | childWait k ready =>
    obtain ⟨-, rfl⟩ := childWait_eq h
    refine inFlight_setChild hn ?_
    rintro (hc | hc | ⟨rest, hc⟩)
    · exact .inl (.inl ⟨k, .inl hc⟩)
    · refine .inl (.inl ⟨k, .inr (.inl ?_)⟩)
      simp only at hc
      split at hc <;> exact hc
    · simp at hc
  | childStep k =>
    rcases (childStep_move h).inFlight hn with hn | rfl
    · exact .inl hn
    · exact .inr ⟨k, hok, rfl⟩

theorem good_new (hk : k < s.forked) :
    Good s ⟨(s.child k).idx, k, s.segment (s.child k).idx, s.writes (s.child k).idx⟩ :=
  ⟨hk, rfl, Nat.le_refl _, fun _ => rfl⟩

/-- What was sent for a notification is the segment it is about, and is what the segment
was then if nothing had been written there. -/
structure Faithful (s : Server) (d : Delivery) : Prop where
  origin : d.notification.origin < s.forked
  client : d.notification.client = (s.child d.notification.origin).idx
  stamp : d.notification.stamp ≤ d.stamp
  snapshot : d.stamp = d.notification.stamp → d.bytes = d.notification.snapshot

theorem Faithful.step {e : Event} {d : Delivery} (h : Faithful s d) (hr : Roster s) (hok : Legal s e)
    (hstep : ShmChat.step s e = some s') : Faithful s' d := by
  obtain ⟨hf, hi⟩ := idx_step hr hok hstep
  exact ⟨by have := h.origin; omega, h.client.trans (hi _ h.origin).symm, h.stamp, h.snapshot⟩

/-- A child sends for the notification it has in hand. -/
theorem mem_delivered_step {e : Event} {d : Delivery} (h : step s e = some s') (hd : d ∈ s'.delivered) :
    d ∈ s.delivered ∨ InFlight s d.notification ∧
      d.bytes = s.segment d.notification.client ∧ d.stamp = s.writes d.notification.client := by
  rcases step_quiet h with hq | ⟨k, -, -, hm⟩
  · exact .inl (hq.2 ▸ hd)
  · cases hm with
    | deliver n rest hpc =>
      rcases List.mem_append.mp hd with hd | hd
      · exact .inl hd
      · obtain rfl := List.mem_singleton.mp hd
        exact .inr ⟨.inl ⟨k, .inr (.inr ⟨rest, hpc⟩)⟩, rfl, rfl⟩
    | _ => exact .inl hd

/-- Where the notifications come from that are in flight, and those that were sent for. -/
structure Traced (s : Server) : Prop where
  inFlight : ∀ n, InFlight s n → Good s n
  delivered : ∀ d ∈ s.delivered, Faithful s d

theorem traced_init (h : Init s) : Traced s := by
  obtain ⟨hpc, -, -, -, -, -, -, -, -, -, -, -, hdelivered, hchild⟩ := h
  refine ⟨?_, by simp [hdelivered]⟩
  rintro n (⟨k, hk⟩ | ⟨fd, j, rest, hf⟩)
  · simp [hchild k, Carries, Server.newChild, Port.empty] at hk
  · simp [hpc] at hf

theorem Traced.step {e : Event} (h : Traced s) (hr : Roster s) (hok : Legal s e)
    (hstep : ShmChat.step s e = some s') : Traced s' := by
  refine ⟨fun n hn => ?_, fun d hd => ?_⟩
  · rcases inFlight_step hr hok hstep hn with hn | ⟨k, hk, rfl⟩
    · exact (h.inFlight n hn).step hr hok hstep
    · exact (good_new hk).step hr hok hstep
  · rcases mem_delivered_step hstep hd with hd | ⟨hn, hbytes, hstamp⟩
    · exact (h.delivered d hd).step hr hok hstep
    · have hgood := h.inFlight _ hn
      have hfaithful : Faithful s d := by
        refine ⟨hgood.origin, hgood.client, ?_, fun heq => ?_⟩
        · rw [hstamp]
          exact hgood.stamp
        · rw [hbytes]
          exact hgood.snapshot (hstamp.symm.trans heq)
      exact hfaithful.step hr hok hstep

theorem traced_reach (h : Reach Init Legal step s) : Traced s :=
  (h.invariant (I := fun s => Roster s ∧ Traced s) (fun _ hi => ⟨roster_init hi, traced_init hi⟩)
    fun _ _ _ hi hok hs => ⟨roster_step hi.1 hok hs, hi.2.step hi.1 hok hs⟩).2

/-- Every notification in flight is good. -/
theorem good_reach (h : Reach Init Legal step s) (hn : InFlight s n) : Good s n :=
  (traced_reach h).inFlight n hn

/-- A child that has been told of data sends the segment of the child they come from, whose
number it was given, as it is then; these are the bytes the notification was about if nothing has been written
to the segment since. -/
theorem delivered_bytes {ok : Bool} {rest : List ChildFd} (h : Reach Init Legal step s)
    (hpc : (s.child k).pc = .got n rest) (hstep : step s (.childStep k ok) = some s') :
    ∃ d, s'.delivered = s.delivered ++ [d] ∧ d.child = k ∧ d.notification = n ∧
      n.client = (s.child n.origin).idx ∧ d.bytes = s.segment (s.child n.origin).idx ∧
      (s.writes (s.child n.origin).idx = n.stamp → d.bytes = n.snapshot) := by
  have hgood := good_reach h (.inl ⟨k, .inr (.inr ⟨rest, hpc⟩)⟩)
  refine ⟨⟨k, n, s.segment n.client, s.writes n.client⟩, ?_, rfl, rfl, hgood.client, ?_⟩
  · have hs : step s (.childStep k ok) = some { s.setChild k { s.child k with pc := .batch rest } with
        delivered := s.delivered ++ [⟨k, n, s.segment n.client, s.writes n.client⟩] } := by
      simp [step, Server.childStep, hpc]
    rw [hs] at hstep
    rw [← Option.some.inj hstep]
  · rw [← hgood.client]
    exact ⟨rfl, hgood.snapshot⟩

/-- Two clients; the first has sent `byte`, and its child has told the parent. -/
def sentEvents (byte : UInt8) : List Event :=
  joinEvents 7 8 9 (some 100) ++ joinEvents 7 9 10 (some 101) ++
    [.childStep 0 true, .clientData 0 [byte], .childWait 0 [.conn], .childStep 0 true, .childStep 0 true,
      .childStep 0 true, .childStep 0 true]

/-- The parent has told the second child, which has read the notification. -/
def toldEvents : List Event :=
  [.epollWait [8], .parentStep true, .parentStep true, .parentStep true, .parentStep true, .parentStep true,
    .childStep 1 true, .childWait 1 [.pipe], .childStep 1 true]

/-- The notification a child has read from its pipe. -/
def ChildPc.notification : ChildPc → Option Notification
  | .got n _ => some n
  | _ => none

theorem eq_got_of_notification (pc : ChildPc) (hn : pc.notification.isSome = true) :
    ∃ rest, pc = .got (pc.notification.get hn) rest := by
  cases pc with
  | got n rest => exact ⟨rest, rfl⟩
  | _ => simp [ChildPc.notification] at hn

/-- Nothing is written in between. -/
theorem delivered_bytes_two :
    let s := (play Legal step start (sentEvents 97 ++ toldEvents)).get (by decide)
    let n := (s.child 1).pc.notification.get (by decide)
    let s' := (step s (.childStep 1 true)).get (by decide)
    ∃ d, s'.delivered = s.delivered ++ [d] ∧ d.child = 1 ∧ d.notification = n ∧
      n.client = (s.child n.origin).idx ∧ d.bytes = s.segment (s.child n.origin).idx ∧
      (s.writes (s.child n.origin).idx = n.stamp → d.bytes = n.snapshot) := by
  intro s n s'
  obtain ⟨rest, hrest⟩ := eq_got_of_notification (s.child 1).pc (by decide)
  have hs : Reach Init Legal step s := reach_of_play init_start (Option.some_get _).symm
  exact delivered_bytes hs hrest (Option.some_get _).symm

/-- The first client sends again before the second child sends the segment. -/
theorem delivered_other_bytes : ¬ ∀ s : Server, Reach Init Legal step s →
    ∀ d ∈ s.delivered, d.bytes = d.notification.snapshot := by
  intro h
  let s := (play Legal step start (sentEvents 97 ++ toldEvents ++ [.childStep 0 true, .clientData 0 [98],
    .childWait 0 [.conn], .childStep 0 true, .childStep 0 true, .childStep 1 true])).get (by decide)
  have hbytes := h s (reach_of_play init_start (Option.some_get _).symm) _
    (List.getElem_mem (show 0 < s.delivered.length by decide))
  exact absurd (congrFun hbytes ⟨0, by decide⟩) (by decide)

end LinuxServer.ShmChat
