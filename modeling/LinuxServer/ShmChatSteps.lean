import LinuxServer.ShmChat

/-!
# What the processes of the chat server do

The branches of the two programs as inversion rules, and the part of the state that
only joins and reaped children change.
-/

namespace LinuxServer.ShmChat

variable {s s' t : Server} {k : ℕ}

/-! ## The branches -/

/-- The steps of `run_child` for the child `k`. -/
inductive ChildMove (s : Server) (k : ℕ) : Server → Prop
  | leave (hpc : (s.child k).pc = .loop) : ChildMove s k (s.childDies k)
  | enter (hpc : (s.child k).pc = .loop) (hstop : (s.child k).stopChild = false) :
      ChildMove s k (s.setChild k { s.child k with pc := .wait })
  | again (hpc : (s.child k).pc = .batch []) : ChildMove s k (s.setChild k { s.child k with pc := .loop })
  | clear (rest : List ChildFd) (hpc : (s.child k).pc = .batch (.conn :: rest)) :
      ChildMove s k ((s.memset (s.child k).idx).setChild k { s.child k with pc := .cleared rest })
  | fails (rest : List ChildFd)
      (hpc : (s.child k).pc = .batch (.pipe :: rest) ∨ (s.child k).pc = .cleared rest) :
      ChildMove s k (s.setChild k { s.child k with pc := .batch rest, stopChild := true })
  | pipeEmpty (rest : List ChildFd) (hpc : (s.child k).pc = .batch (.pipe :: rest))
      (hqueue : (s.child k).pipe.queue = []) :
      ChildMove s k (s.setChild k { s.child k with pc := .batch rest })
  | pipeRead (rest : List ChildFd) (n : Notification) (hpc : (s.child k).pc = .batch (.pipe :: rest))
      (hqueue : n ∈ (s.child k).pipe.queue) :
      ChildMove s k (s.setChild k { s.child k with pc := .got n rest, pipe := (s.child k).pipe.taken 1 })
  | recvEmpty (rest : List ChildFd) (hpc : (s.child k).pc = .cleared rest)
      (hqueue : (s.child k).conn.queue = []) :
      ChildMove s k (s.setChild k { s.child k with pc := .batch rest })
  | recvData (rest : List ChildFd) (bytes : List UInt8) (hpc : (s.child k).pc = .cleared rest)
      (hlen : bytes.length ≤ bufferSize) :
      ChildMove s k ((s.store (s.child k).idx bytes).setChild k
        { s.child k with pc := .received rest, conn := (s.child k).conn.taken (bufferSize - 1) })
  | unheard (rest : List ChildFd) (hpc : (s.child k).pc = .received rest) :
      ChildMove s k (s.setChild k { s.child k with pc := .batch rest })
  | notify (rest : List ChildFd) (hpc : (s.child k).pc = .received rest) :
      ChildMove s k (s.setChild k { s.child k with
        pc := .batch rest
        up := (s.child k).up.arrive
          [⟨(s.child k).idx, k, s.segment (s.child k).idx, s.writes (s.child k).idx⟩] })
  | deliver (n : Notification) (rest : List ChildFd) (hpc : (s.child k).pc = .got n rest) :
      ChildMove s k { s.setChild k { s.child k with pc := .batch rest } with
        delivered := s.delivered ++ [⟨k, n, s.segment n.client, s.writes n.client⟩] }

theorem childStep_move {ok : Bool} (h : s.childStep k ok = some s') : ChildMove s k s' := by
  unfold Server.childStep at h
  cases hpc : (s.child k).pc with
  | loop =>
    cases hstop : (s.child k).stopChild with
    | true =>
      obtain rfl : s.childDies k = s' := by simpa [hpc, hstop] using h
      exact .leave hpc
    | false =>
      obtain rfl : s.setChild k { s.child k with pc := .wait } = s' := by simpa [hpc, hstop] using h
      simpa [hstop] using ChildMove.enter hpc hstop
  | wait | zombie | reaped => simp [hpc] at h
  | batch events =>
    match events with
    | [] =>
      obtain rfl := by simpa [hpc] using h
      exact .again hpc
    | .conn :: rest =>
      obtain rfl := by simpa [hpc] using h
      exact .clear rest hpc
    | .pipe :: rest =>
      cases ok with
      | false =>
        obtain rfl := by simpa [hpc] using h
        exact .fails rest (.inl hpc)
      | true =>
        cases hq : (s.child k).pipe.queue with
        | nil =>
          obtain rfl := by simpa [hpc, hq] using h
          exact .pipeEmpty rest hpc hq
        | cons n q =>
          obtain rfl := by simpa [hpc, hq] using h
          exact .pipeRead rest n hpc (by simp [hq])
  | cleared rest =>
    cases ok with
    | false =>
      obtain rfl := by simpa [hpc] using h
      exact .fails rest (.inr hpc)
    | true =>
      by_cases hq : (s.child k).conn.queue = []
      · obtain rfl := by simpa [hpc, hq] using h
        exact .recvEmpty rest hpc hq
      · obtain rfl := by simpa [hpc, hq] using h
        refine .recvData rest _ hpc ?_
        simp only [List.length_take]
        omega
  | received rest =>
    cases ok with
    | false =>
      obtain rfl := by simpa [hpc] using h
      exact .unheard rest hpc
    | true =>
      obtain rfl := by simpa [hpc] using h
      exact .notify rest hpc
  | got n rest =>
    obtain rfl := by simpa [hpc] using h
    exact .deliver n rest hpc

/-- The steps of the parent between calls of `epoll_wait`, `accept` and `waitpid`. -/
inductive ParentMove (s : Server) : Server → Prop
  | again (hpc : s.pc = .batch []) : ParentMove s { s with pc := if s.stopServer then .done else .wait }
  | signalsEmpty (rest : List ℤ) (hpc : s.pc = .batch (s.sigPipefd0 :: rest))
      (hqueue : s.signals.queue = []) : ParentMove s { s with pc := .batch rest }
  | signalsRead (rest : List ℤ) (sigs : List Signal) (hpc : s.pc = .batch (s.sigPipefd0 :: rest)) :
      ParentMove s { s with pc := .signals sigs rest, signals := s.signals.taken 1024 }
  | ignore (fd : ℤ) (rest : List ℤ) (hpc : s.pc = .batch (fd :: rest)) (hlisten : fd ≠ s.listenfd)
      (hsig : fd ≠ s.sigPipefd0) (hqueue : ∀ k, s.files fd = some (.pipe k) → (s.child k).up.queue = []) :
      ParentMove s { s with pc := .batch rest }
  | pipeRead (fd : ℤ) (rest : List ℤ) (k : ℕ) (n : Notification) (hpc : s.pc = .batch (fd :: rest))
      (hlisten : fd ≠ s.listenfd) (hsig : fd ≠ s.sigPipefd0) (hfile : s.files fd = some (.pipe k))
      (hqueue : n ∈ (s.child k).up.queue) :
      ParentMove s { s.setChild k { s.child k with up := (s.child k).up.taken 1 } with
        pc := .forward n fd 0 rest }
  | signalsEnd (rest : List ℤ) (hpc : s.pc = .signals [] rest) : ParentMove s { s with pc := .batch rest }
  | chld (sigs : List Signal) (rest : List ℤ) (hpc : s.pc = .signals (.chld :: sigs) rest) :
      ParentMove s { s with pc := .reap sigs rest }
  | stop (sig : Signal) (sigs : List Signal) (rest : List ℤ) (hpc : s.pc = .signals (sig :: sigs) rest) :
      ParentMove s { s.stop with pc := .signals sigs rest }
  | other (sigs : List Signal) (rest : List ℤ) (hpc : s.pc = .signals (.other :: sigs) rest) :
      ParentMove s { s with pc := .signals sigs rest }
  | skip (n : Notification) (fd j : ℤ) (rest : List ℤ) (hpc : s.pc = .forward n fd j rest) :
      ParentMove s { s with pc := .forward n fd (j + 1) rest }
  | send (n : Notification) (fd j : ℤ) (rest : List ℤ) (hpc : s.pc = .forward n fd j rest)
      (hj : j < s.userCount) : ParentMove s { s.forwardTo n j with pc := .forward n fd (j + 1) rest }
  | forwarded (n : Notification) (fd j : ℤ) (rest : List ℤ) (hpc : s.pc = .forward n fd j rest) :
      ParentMove s { s with pc := .batch rest }

theorem parentStep_move {sent : Bool} (h : s.parentStep sent = some s') : ParentMove s s' := by
  unfold Server.parentStep at h
  cases hpc : s.pc with
  | wait | reap | done => simp [hpc] at h
  | batch events =>
    cases events with
    | nil =>
      obtain rfl : { s with pc := if s.stopServer then .done else .wait } = s' := by simpa [hpc] using h
      exact .again hpc
    | cons fd rest =>
      by_cases hlisten : fd = s.listenfd
      · simp [hpc, hlisten] at h
      · by_cases hsig : fd = s.sigPipefd0
        · subst hsig
          by_cases hq : s.signals.queue = []
          · obtain rfl := by simpa [hpc, hlisten, hq] using h
            exact .signalsEmpty rest hpc hq
          · obtain rfl := by simpa [hpc, hlisten, hq] using h
            exact .signalsRead rest _ hpc
        · simp only [hpc, hlisten, hsig, if_false] at h
          split at h
          next k hfile =>
            split at h
            next hq =>
              obtain rfl := by simpa using h
              refine .ignore fd rest hpc hlisten hsig fun l hl => ?_
              obtain rfl : k = l := by simpa [hfile] using hl
              exact hq
            next n q hq =>
              obtain rfl := by simpa using h
              exact .pipeRead fd rest k n hpc hlisten hsig hfile (by simp [hq])
          next hno =>
            obtain rfl := by simpa using h
            exact .ignore fd rest hpc hlisten hsig fun k hk => absurd hk (hno k)
  | signals sigs rest =>
    match sigs with
    | [] =>
      obtain rfl := by simpa [hpc] using h
      exact .signalsEnd rest hpc
    | .chld :: sigs =>
      obtain rfl := by simpa [hpc] using h
      exact .chld sigs rest hpc
    | .other :: sigs =>
      obtain rfl := by simpa [hpc] using h
      exact .other sigs rest hpc
    | .term :: sigs =>
      obtain rfl : { s.stop with pc := .signals sigs rest } = s' := by simpa [hpc] using h
      exact .stop _ sigs rest hpc
    | .int :: sigs =>
      obtain rfl : { s.stop with pc := .signals sigs rest } = s' := by simpa [hpc] using h
      exact .stop _ sigs rest hpc
  | forward n fd j rest =>
    simp only [hpc] at h
    split at h
    next hj =>
      split at h
      · obtain rfl := by simpa using h
        exact .send n fd j rest hpc hj
      · obtain rfl := by simpa using h
        exact .skip n fd j rest hpc
    next =>
      obtain rfl := by simpa using h
      exact .forwarded n fd j rest hpc

/-- A signal to stop sets one of two flags. -/
theorem stop_cases (s : Server) :
    s.stop = { s with stopServer := true } ∨ s.stop = { s with terminate := true } := by
  unfold Server.stop
  split
  · exact .inl rfl
  · exact .inr rfl

/-- A `send` of the parent reaches one child or nobody. -/
theorem forwardTo_cases (n : Notification) (j : ℤ) (s : Server) : s.forwardTo n j = s ∨
    ∃ k, s.forwardTo n j = s.setChild k { s.child k with pipe := (s.child k).pipe.arrive [n] } := by
  unfold Server.forwardTo
  split
  next k _ =>
    split
    · exact .inr ⟨k, rfl⟩
    · exact .inl rfl
  · exact .inl rfl

/-- A report clears the edge of one port, or of none. -/
theorem report_cases (s : Server) (fd : ℤ) :
    fd = s.listenfd ∧ s.report fd = { s with backlog := s.backlog.report } ∨
      fd = s.sigPipefd0 ∧ s.report fd = { s with signals := s.signals.report } ∨
      (∃ k, s.files fd = some (.pipe k) ∧
        s.report fd = s.setChild k { s.child k with up := (s.child k).up.report }) ∨
      s.report fd = s := by
  unfold Server.report
  split
  next h => exact .inl ⟨h, rfl⟩
  · split
    next h => exact .inr (.inl ⟨h, rfl⟩)
    · split
      next k hk => exact .inr (.inr (.inl ⟨k, hk, rfl⟩))
      · exact .inr (.inr (.inr rfl))

/-- What one report keeps, those of a whole `epoll_wait` keep. -/
theorem foldl_report {R : Server → Server → Prop} (hrefl : ∀ s, R s s)
    (htrans : ∀ {s t u}, R s t → R t u → R s u) (hone : ∀ s fd, R s (s.report fd)) (ready : List ℤ)
    (s : Server) : R s (ready.foldl Server.report s) := by
  induction ready generalizing s with
  | nil => exact hrefl s
  | cons fd ready ih => exact htrans (hone s fd) (ih _)

/-! ## What leaves the roster alone -/

/-- The tables of the parent are the same, and no child was reaped or came to life. -/
structure Same (s s' : Server) : Prop where
  listenfd : s'.listenfd = s.listenfd
  sigPipefd0 : s'.sigPipefd0 = s.sigPipefd0
  users : s'.users = s.users
  userCount : s'.userCount = s.userCount
  subProcess : s'.subProcess = s.subProcess
  files : s'.files = s.files
  forked : s'.forked = s.forked
  pid : ∀ k, (s'.child k).pid = (s.child k).pid
  idx : ∀ k, (s'.child k).idx = (s.child k).idx
  pipefd0 : ∀ k, (s'.child k).pipefd0 = (s.child k).pipefd0
  reaped : ∀ k, (s'.child k).pc.isReaped = (s.child k).pc.isReaped
  running : ∀ k, (s'.child k).pc.running = true → (s.child k).pc.running = true

/-- The tables of the parent, and the children. -/
def Server.tables (s : Server) :
    ℤ × ℤ × (ℤ → ClientData) × ℤ × (ℤ → ℤ) × (ℤ → Option File) × ℕ × (ℕ → Child) :=
  (s.listenfd, s.sigPipefd0, s.users, s.userCount, s.subProcess, s.files, s.forked, s.child)

/-- What `fork` and `socketpair` gave a child, which it keeps. -/
def Child.birth (c : Child) : ℤ × ℤ × ℤ := (c.pid, c.idx, c.pipefd0)

theorem Same.of_eq (h : s'.tables = s.tables) : Same s s' := by
  simp only [Server.tables, Prod.mk.injEq] at h
  obtain ⟨h1, h2, h3, h4, h5, h6, h7, h8⟩ := h
  refine ⟨h1, h2, h3, h4, h5, h6, h7, ?_, ?_, ?_, ?_, ?_⟩ <;> simp [h8]

theorem Same.refl (s : Server) : Same s s := .of_eq rfl

theorem Same.trans (h : Same s s') (h' : Same s' t) : Same s t :=
  ⟨h'.listenfd.trans h.listenfd, h'.sigPipefd0.trans h.sigPipefd0, h'.users.trans h.users,
    h'.userCount.trans h.userCount, h'.subProcess.trans h.subProcess, h'.files.trans h.files,
    h'.forked.trans h.forked, fun k => (h'.pid k).trans (h.pid k), fun k => (h'.idx k).trans (h.idx k),
    fun k => (h'.pipefd0 k).trans (h.pipefd0 k), fun k => (h'.reaped k).trans (h.reaped k),
    fun k hk => h.running k (h'.running k hk)⟩

/-- What happens to one child. -/
theorem same_setChild {c : Child} (hbirth : c.birth = (s.child k).birth)
    (hreaped : c.pc.isReaped = (s.child k).pc.isReaped)
    (hrun : c.pc.running = true → (s.child k).pc.running = true) : Same s (s.setChild k c) := by
  simp only [Child.birth, Prod.mk.injEq] at hbirth
  obtain ⟨hpid, hidx, hfd⟩ := hbirth
  refine ⟨rfl, rfl, rfl, rfl, rfl, rfl, rfl, fun l => ?_, fun l => ?_, fun l => ?_, fun l => ?_,
    fun l => ?_⟩ <;>
    rcases eq_or_ne l k with rfl | hl
  case refine_5.inl => simpa [Server.setChild] using hrun
  all_goals simp [Server.setChild, *]

/-- A child in the middle of `run_child` moves. -/
theorem same_move {c : Child} (hbirth : c.birth = (s.child k).birth) (hreaped : c.pc.isReaped = false)
    (hrun : (s.child k).pc.running = true) : Same s (s.setChild k c) := by
  refine same_setChild hbirth (hreaped.trans ?_) fun _ => hrun
  cases hpc : (s.child k).pc <;> simp [hpc, ChildPc.running, ChildPc.isReaped] at hrun ⊢

theorem same_childDies (hrun : (s.child k).pc.running = true) : Same s (s.childDies k) :=
  (same_move (c := { s.child k with pc := .zombie, up := (s.child k).up.arrive [] })
    rfl rfl hrun).trans (.of_eq rfl)

theorem ChildMove.same (h : ChildMove s k s') : Same s s' := by
  have hrun : (s.child k).pc.running = true := by
    cases h with
    | fails _ hpc => rcases hpc with hpc | hpc <;> simp [hpc, ChildPc.running]
    | leave hpc | enter hpc | again hpc | clear _ hpc | pipeEmpty _ hpc | pipeRead _ _ hpc | recvEmpty _ hpc
      | recvData _ _ hpc | unheard _ hpc | notify _ hpc | deliver _ _ hpc => simp [hpc, ChildPc.running]
  cases h with
  | leave => exact same_childDies hrun
  | clear =>
    have hmem : Same s (s.memset (s.child k).idx) := .of_eq rfl
    exact hmem.trans (same_move rfl rfl hrun)
  | recvData rest bytes =>
    have hmem : Same s (s.store (s.child k).idx bytes) := .of_eq rfl
    exact hmem.trans (same_move rfl rfl hrun)
  | deliver n rest =>
    have hmove : Same s (s.setChild k { s.child k with pc := .batch rest }) :=
      same_move rfl rfl hrun
    exact hmove.trans (.of_eq rfl)
  | _ => exact same_move rfl rfl hrun

theorem same_forwardTo (n : Notification) (j : ℤ) (s : Server) : Same s (s.forwardTo n j) := by
  rcases forwardTo_cases n j s with h | ⟨k, h⟩ <;> rw [h]
  · exact .refl s
  · exact same_setChild rfl rfl fun h => h

theorem ParentMove.same (h : ParentMove s s') : Same s s' := by
  cases h with
  | pipeRead fd rest k n =>
    exact (same_setChild (c := { s.child k with up := (s.child k).up.taken 1 }) rfl rfl
      fun h => h).trans (.of_eq rfl)
  | stop =>
    rcases stop_cases s with h | h <;> rw [h] <;> exact .of_eq rfl
  | send n fd j rest => exact (same_forwardTo n j s).trans (.of_eq rfl)
  | _ => exact .of_eq rfl

theorem same_report (s : Server) (fd : ℤ) : Same s (s.report fd) := by
  rcases report_cases s fd with ⟨-, h⟩ | ⟨-, h⟩ | ⟨k, -, h⟩ | h <;> rw [h]
  · exact .of_eq rfl
  · exact .of_eq rfl
  · exact same_setChild rfl rfl fun h => h
  · exact .refl s

theorem same_foldl_report (ready : List ℤ) (s : Server) : Same s (ready.foldl Server.report s) :=
  foldl_report Same.refl Same.trans same_report ready s

/-! ## What a step does to the roster -/

theorem childWait_eq {ready : List ChildFd} (h : s.childWait k ready = some s') :
    (s.child k).pc = .wait ∧ s' = s.setChild k { s.child k with
      pc := .batch ready
      conn := if .conn ∈ ready then (s.child k).conn.report else (s.child k).conn
      pipe := if .pipe ∈ ready then (s.child k).pipe.report else (s.child k).pipe } := by
  unfold Server.childWait at h
  cases hpc : (s.child k).pc <;> simp [hpc] at h ⊢
  exact h.symm

theorem epollWait_eq {ready : List ℤ} (h : s.epollWait ready = some s') :
    s.pc = .wait ∧ s' = { ready.foldl Server.report s with pc := .batch ready } := by
  unfold Server.epollWait at h
  cases hpc : s.pc <;> simp [hpc] at h ⊢
  exact h.symm

theorem accept_eq {result : Accepted} (h : s.accept result = some s') :
    ∃ rest, s.pc = .batch (s.listenfd :: rest) ∧ s' = { s.acceptBranch result with pc := .batch rest } := by
  unfold Server.accept at h
  split at h
  next fd rest hpc =>
    split at h
    next hfd =>
      subst hfd
      exact ⟨rest, hpc, by simpa using h.symm⟩
    · cases h
  · cases h

theorem waitpid_some_eq (h : s.waitpid (some k) = some s') :
    (∃ sigs rest, s.pc = .reap sigs rest) ∧ s' = s.reap k := by
  unfold Server.waitpid at h
  split at h
  next sigs rest hpc => exact ⟨⟨sigs, rest, hpc⟩, by simpa using h.symm⟩
  · cases h

theorem waitpid_none_eq (h : s.waitpid none = some s') : ∃ sigs rest, s.pc = .reap sigs rest ∧
    s' = { s with
      stopServer := s.stopServer || (s.terminate && s.userCount = 0)
      pc := .signals sigs rest } := by
  unfold Server.waitpid at h
  split at h
  next sigs rest hpc => exact ⟨sigs, rest, hpc, by simpa using h.symm⟩
  · cases h

/-- What a step can do to the roster: nothing, lose a pipe, add a child, take one out. -/
inductive RosterMove (s : Server) : Event → Server → Prop
  | same (e : Event) (s' : Server) (h : Same s s') : RosterMove s e s'
  | forkFails (connfd pipefd0 pipefd1 : ℤ) (s' : Server) (hcount : s.userCount < userLimit)
      (h : Same ((s.openPipe connfd pipefd0 pipefd1).forkFails pipefd0 pipefd1) s') :
      RosterMove s (.accept (.connected connfd pipefd0 pipefd1 none)) s'
  | join (connfd pipefd0 pipefd1 pid : ℤ) (s' : Server) (hcount : s.userCount < userLimit)
      (h : Same ((s.openPipe connfd pipefd0 pipefd1).join pid pipefd0) s') :
      RosterMove s (.accept (.connected connfd pipefd0 pipefd1 (some pid))) s'
  | reap (k : ℕ) : RosterMove s (.waitpid (some k)) (s.reap k)

theorem roster_move {e : Event} (h : step s e = some s') : RosterMove s e s' := by
  cases e with
  | connect | signal =>
    obtain rfl := by simpa [step] using h
    exact .same _ _ (.of_eq rfl)
  | clientData k | childTermHandler k =>
    obtain rfl := by simpa [step] using h
    exact .same _ _ (same_setChild rfl rfl fun h => h)
  | sigHandler =>
    simp only [step] at h
    split at h
    · obtain rfl := by simpa using h
      exact .same _ _ (.of_eq rfl)
    · cases h
  | childDies k =>
    simp only [step] at h
    split at h
    next hrun =>
      obtain rfl := by simpa using h
      exact .same _ _ (same_childDies hrun)
    · cases h
  | epollWait ready =>
    obtain ⟨-, rfl⟩ := epollWait_eq h
    exact .same _ _ ((same_foldl_report ready s).trans (.of_eq rfl))
  | accept result =>
    obtain ⟨rest, -, rfl⟩ := accept_eq h
    cases result with
    | failed => exact .same _ _ (.of_eq rfl)
    | connected connfd pipefd0 pipefd1 pid =>
      simp only [Server.acceptBranch]
      split
      · exact .same _ _ (.of_eq rfl)
      next hlt =>
        have hcount : s.userCount < userLimit := by simpa using hlt
        cases pid with
        | none =>
          refine .forkFails connfd pipefd0 pipefd1 _ hcount ?_
          exact .of_eq rfl
        | some pid =>
          refine .join connfd pipefd0 pipefd1 pid _ hcount ?_
          exact .of_eq rfl
  | waitpid k =>
    cases k with
    | some k =>
      obtain ⟨-, rfl⟩ := waitpid_some_eq h
      exact .reap k
    | none =>
      obtain ⟨sigs, rest, -, rfl⟩ := waitpid_none_eq h
      exact .same _ _ (.of_eq rfl)
  | parentStep => exact .same _ _ (parentStep_move h).same
  | childWait k ready =>
    obtain ⟨hpc, rfl⟩ := childWait_eq h
    exact .same _ _ (same_move rfl rfl (by simp [hpc, ChildPc.running]))
  | childStep k => exact .same _ _ (childStep_move h).same

end LinuxServer.ShmChat
