import LinuxServer.ShmChatRoster

/-!
# Input that nobody is told of

Every process registers its descriptors with `EPOLLET` and answers an event with one
`accept` or one `recv`.  What that call leaves waits for an arrival that may never come.
-/

namespace LinuxServer.ShmChat
open Port

variable {s s' : Server} {k : ℕ}

/-- The descriptors that the parent has still to handle. -/
def ParentPc.events : ParentPc → List ℤ
  | .wait => []
  | .batch events => events
  | .signals _ events => events
  | .reap _ events => events
  | .forward _ _ _ events => events
  | .done => []

/-- The descriptors that a child has still to read from. -/
def ChildPc.events : ChildPc → List ChildFd
  | .batch events => events
  | .cleared events => .conn :: events
  | .received events => events
  | .got _ events => events
  | _ => []

/-- A step that answers an event takes all there is, unless more has arrived since.  A
child whose `recv` fails is to leave its loop. -/
def drains (s : Server) : Event → Bool
  | .accept .failed => s.backlog.Fits 0
  | .accept (.connected _ _ _ _) => s.backlog.Fits 1
  | .parentStep _ =>
    match s.pc with
    | .batch (fd :: _) =>
      if fd = s.sigPipefd0 then s.signals.Fits 1024
      else
        match s.files fd with
        | some (.pipe k) => (s.child k).up.Fits 1
        | _ => true
    | _ => true
  | .childStep k true =>
    match (s.child k).pc with
    | .cleared _ => (s.child k).conn.Fits (bufferSize - 1)
    | .batch (.pipe :: _) => (s.child k).pipe.Fits 1
    | _ => true
  | _ => true

/-- What a child has registered is settled or about to be read, unless it is to leave
its loop. -/
def ChildHeard (c : Child) : Prop :=
  c.pc.running = true → (c.stopChild = true ∧ c.pc ≠ .wait) ∨
    (c.conn.Settled ∨ .conn ∈ c.pc.events) ∧ (c.pipe.Settled ∨ .pipe ∈ c.pc.events)

/-- Whatever is registered is settled or about to be handled. -/
structure Heard (s : Server) : Prop where
  backlog : s.backlog.Settled ∨ s.listenfd ∈ s.pc.events
  signals : s.signals.Settled ∨ s.sigPipefd0 ∈ s.pc.events
  pipes : ∀ fd k, s.files fd = some (.pipe k) → (s.child k).up.Settled ∨ fd ∈ s.pc.events
  child : ∀ k, ChildHeard (s.child k)

/-- What a process registers, and its queues. -/
def Server.ports (s : Server) :
    ℤ × ℤ × Port Unit × Port Signal × (ℤ → Option File) × (ℕ → Child) :=
  (s.listenfd, s.sigPipefd0, s.backlog, s.signals, s.files, s.child)

theorem Heard.congr (h : Heard s) (hports : s'.ports = s.ports) (h7 : s'.pc.events = s.pc.events) :
    Heard s' := by
  simp only [Server.ports, Prod.mk.injEq] at hports
  obtain ⟨h1, h2, h3, h4, h5, h6⟩ := hports
  refine ⟨?_, ?_, fun fd k hf => ?_, fun k => ?_⟩
  · rw [h1, h3, h7]
    exact h.backlog
  · rw [h2, h4, h7]
    exact h.signals
  · rw [h6, h7]
    exact h.pipes fd k (h5 ▸ hf)
  · rw [h6]
    exact h.child k

/-- One child moves. -/
theorem Heard.setChild (h : Heard s) {c : Child} (hup : (s.child k).up.Settled → c.up.Settled)
    (hc : ChildHeard c) : Heard (s.setChild k c) := by
  refine ⟨h.backlog, h.signals, fun fd l hf => ?_, fun l => ?_⟩ <;> rcases eq_or_ne l k with rfl | hl
  · have := h.pipes fd l hf
    simpa [Server.setChild] using this.imp_left hup
  · simpa [Server.setChild, hl] using h.pipes fd l hf
  · simpa [Server.setChild] using hc
  · simpa [Server.setChild, hl] using h.child l

/-- The parent is done with a descriptor that has nothing more. -/
theorem Heard.pop (h : Heard s) {fd : ℤ} {rest : List ℤ} (pc : ParentPc) (hev : s.pc.events = fd :: rest)
    (hpc : pc.events = rest) (h1 : fd = s.listenfd → s.backlog.Settled)
    (h2 : fd = s.sigPipefd0 → s.signals.Settled)
    (h3 : ∀ k, s.files fd = some (.pipe k) → (s.child k).up.Settled) : Heard { s with pc := pc } := by
  have hmem : ∀ {g : ℤ}, g ∈ s.pc.events → g = fd ∨ g ∈ pc.events := by
    intro g hg
    rw [hev] at hg
    rw [hpc]
    exact List.mem_cons.mp hg
  refine ⟨?_, ?_, fun g k hf => ?_, h.child⟩
  · rcases h.backlog with hs | hm
    · exact .inl hs
    · exact (hmem hm).imp_left fun e => h1 e.symm
  · rcases h.signals with hs | hm
    · exact .inl hs
    · exact (hmem hm).imp_left fun e => h2 e.symm
  · rcases h.pipes g k hf with hs | hm
    · exact .inl hs
    · rcases hmem hm with rfl | hm
      · exact .inl (h3 k hf)
      · exact .inr hm

/-! ## The children -/

variable {c : Child}

theorem childHeard_dead (h : c.pc.running = false) : ChildHeard c := fun hrun => by simp [h] at hrun

/-- A child with the same descriptors settled, and the same ones to read. -/
theorem ChildHeard.mono (h : ChildHeard c) {c' : Child} (hrun : c.pc.running = true)
    (hstop : c.stopChild = true → c'.stopChild = true) (hwait : c'.pc ≠ .wait)
    (hconn : c.conn.Settled ∨ .conn ∈ c.pc.events → c'.conn.Settled ∨ .conn ∈ c'.pc.events)
    (hpipe : c.pipe.Settled ∨ .pipe ∈ c.pc.events → c'.pipe.Settled ∨ .pipe ∈ c'.pc.events) :
    ChildHeard c' := by
  intro _
  rcases h hrun with ⟨h1, -⟩ | ⟨h1, h2⟩
  · exact .inl ⟨hstop h1, hwait⟩
  · exact .inr ⟨hconn h1, hpipe h2⟩

theorem ChildMove.heard (h : ChildMove s k s') (hs : Heard s)
    (hdrains : (s'.child k).stopChild = false → drains s (.childStep k true) = true) : Heard s' := by
  have hc := hs.child k
  simp only [drains] at hdrains
  cases h with
  | leave hpc =>
    -- the end of the stream is an arrival on the pipe
    refine (hs.setChild (k := k) (c := { s.child k with pc := .zombie, up := (s.child k).up.arrive [] })
      (fun _ => settled_arrive _ _) (childHeard_dead rfl)).congr rfl rfl
  | enter hpc hstop =>
    refine hs.setChild id fun _ => ?_
    rcases hc (by simp [hpc, ChildPc.running]) with ⟨h1, -⟩ | h2
    · simp [hstop] at h1
    · exact .inr (by simpa [hpc, ChildPc.events] using h2)
  | again hpc =>
    exact hs.setChild id (hc.mono (by simp [hpc, ChildPc.running]) id (by simp)
      (by simp [hpc, ChildPc.events]) (by simp [hpc, ChildPc.events]))
  | clear rest hpc =>
    have hm : Heard (s.memset (s.child k).idx) := hs.congr rfl rfl
    exact hm.setChild id (hc.mono (by simp [hpc, ChildPc.running]) id (by simp)
      (by simp [hpc, ChildPc.events]) (by simp [hpc, ChildPc.events]))
  | fails rest hpc =>
    -- the loop ends before the next `epoll_wait`
    exact hs.setChild id fun _ => .inl ⟨rfl, by simp⟩
  | pipeEmpty rest hpc hqueue =>
    exact hs.setChild id (hc.mono (by simp [hpc, ChildPc.running]) id (by simp)
      (by simp [hpc, ChildPc.events]) fun _ => .inl (.inl hqueue))
  | pipeRead rest n hpc =>
    rw [hpc] at hdrains
    refine hs.setChild id ?_
    cases hstop : (s.child k).stopChild with
    | true => exact fun _ => .inl ⟨hstop, by simp⟩
    | false =>
      -- what the one `recv` leaves behind is nothing, or comes with an arrival to report
      have hd := hdrains (by simpa [Server.setChild] using hstop)
      exact hc.mono (by simp [hpc, ChildPc.running]) id (by simp) (by simp [hpc, ChildPc.events])
        fun _ => .inl (Fits.settled (of_decide_eq_true hd))
  | recvEmpty rest hpc hqueue =>
    exact hs.setChild id (hc.mono (by simp [hpc, ChildPc.running]) id (by simp)
      (fun _ => .inl (.inl hqueue)) (by simp [hpc, ChildPc.events]))
  | recvData rest bytes hpc =>
    rw [hpc] at hdrains
    have hm : Heard (s.store (s.child k).idx bytes) := hs.congr rfl rfl
    refine hm.setChild id ?_
    cases hstop : (s.child k).stopChild with
    | true => exact fun _ => .inl ⟨hstop, by simp⟩
    | false =>
      have hd := hdrains (by simpa [Server.setChild] using hstop)
      exact hc.mono (by simp [hpc, ChildPc.running]) id (by simp)
        (fun _ => .inl (Fits.settled (of_decide_eq_true hd))) (by simp [hpc, ChildPc.events])
  | unheard rest hpc =>
    exact hs.setChild id (hc.mono (by simp [hpc, ChildPc.running]) id (by simp)
      (by simp [hpc, ChildPc.events]) (by simp [hpc, ChildPc.events]))
  | notify rest hpc =>
    exact hs.setChild (fun _ => settled_arrive _ _) (hc.mono (by simp [hpc, ChildPc.running]) id (by simp)
      (by simp [hpc, ChildPc.events]) (by simp [hpc, ChildPc.events]))
  | deliver n rest hpc =>
    refine (hs.setChild (k := k) (c := { s.child k with pc := .batch rest }) id
      (hc.mono (by simp [hpc, ChildPc.running]) id (by simp) (by simp [hpc, ChildPc.events])
        (by simp [hpc, ChildPc.events]))).congr rfl rfl

/-- A call that fails is the last one before the child leaves. -/
theorem childStep_false (h : s.childStep k false = some s') (hstop : (s'.child k).stopChild = false) :
    drains s (.childStep k true) = true := by
  simp only [drains]
  split
  next rest hpc =>
    obtain rfl := by simpa [Server.childStep, hpc] using h
    simp [Server.setChild] at hstop
  next rest hpc =>
    obtain rfl := by simpa [Server.childStep, hpc] using h
    simp [Server.setChild] at hstop
  · rfl

theorem Heard.childWait (h : Heard s) {ready : List ChildFd} (hstep : s.childWait k ready = some s') :
    Heard s' := by
  obtain ⟨hpc, rfl⟩ := childWait_eq hstep
  refine h.setChild id fun _ => .inr ?_
  obtain ⟨h1, h2⟩ : (s.child k).conn.Settled ∧ (s.child k).pipe.Settled := by
    rcases h.child k (by simp [hpc, ChildPc.running]) with ⟨-, hne⟩ | h2
    · exact absurd hpc hne
    · simpa [hpc, ChildPc.events] using h2
  constructor
  · by_cases hr : ChildFd.conn ∈ ready
    · exact .inr hr
    · exact .inl (by simpa [hr] using h1)
  · by_cases hr : ChildFd.pipe ∈ ready
    · exact .inr hr
    · exact .inl (by simpa [hr] using h2)

/-! ## The parent -/

theorem Heard.forwardTo (h : Heard s) (n : Notification) (j : ℤ) : Heard (s.forwardTo n j) := by
  rcases forwardTo_cases n j s with hs | ⟨l, hs⟩ <;> rw [hs]
  · exact h
  · refine h.setChild id fun hrun => ?_
    exact (h.child l hrun).imp_right fun hf => ⟨hf.1, .inl (settled_arrive _ _)⟩

theorem ParentMove.heard (h : ParentMove s s') (hs : Heard s) (hr : Roster s)
    (hdrains : ∀ sent, drains s (.parentStep sent) = true) : Heard s' := by
  have hd := hdrains true
  simp only [drains] at hd
  have hsig : s.sigPipefd0 ≠ s.listenfd := by
    intro e
    have := hr.sig
    rw [e, hr.listen] at this
    simp at this
  have hsigpipe : ∀ k, s.files s.sigPipefd0 ≠ some (.pipe k) := by simp [hr.sig]
  cases h with
  | again hpc =>
    refine hs.congr rfl ?_
    cases s.stopServer <;> simp [hpc, ParentPc.events]
  | signalsEmpty rest hpc hqueue =>
    exact hs.pop _ (by rw [hpc]; rfl) rfl (fun e => absurd e hsig) (fun _ => .inl hqueue)
      fun k hf => absurd hf (hsigpipe k)
  | signalsRead rest sigs hpc =>
    rw [hpc] at hd
    simp only [if_true] at hd
    have ht : Heard { s with signals := s.signals.taken 1024 } :=
      ⟨hs.backlog, hs.signals.imp_left fun h => h.taken 1024, hs.pipes, hs.child⟩
    exact ht.pop (.signals sigs rest) (by simp [hpc, ParentPc.events]) rfl (fun e => absurd e hsig)
      (fun _ => Fits.settled (of_decide_eq_true hd)) fun k hf => absurd hf (hsigpipe k)
  | ignore fd rest hpc hl hsg hqueue =>
    -- no branch is taken, and no pipe behind the descriptor has data
    exact hs.pop _ (by rw [hpc]; rfl) rfl (fun e => absurd e hl) (fun e => absurd e hsg)
      fun k hf => .inl (hqueue k hf)
  | pipeRead fd rest k n hpc hl hsg hfile =>
    rw [hpc] at hd
    simp only [hsg, if_false, hfile] at hd
    have ht := hs.setChild (k := k) (c := { s.child k with up := (s.child k).up.taken 1 })
      (fun h => h.taken 1) (hs.child k)
    have hev : (s.setChild k { s.child k with up := (s.child k).up.taken 1 }).pc.events = fd :: rest := by
      simp [Server.setChild, hpc, ParentPc.events]
    refine ht.pop (.forward n fd 0 rest) hev rfl (fun e => absurd e hl) (fun e => absurd e hsg) fun l hf => ?_
    obtain rfl : k = l := by simpa [Server.setChild, hfile] using hf
    simpa [Server.setChild] using Fits.settled (of_decide_eq_true hd)
  | signalsEnd rest hpc | chld sigs rest hpc | other sigs rest hpc | skip n fd j rest hpc
    | forwarded n fd j rest hpc =>
    exact hs.congr rfl (by rw [hpc]; rfl)
  | stop sig sigs rest hpc =>
    refine hs.congr ?_ ?_
    · rcases stop_cases s with h | h <;> rw [h] <;> rfl
    · rw [hpc]
      rfl
  | send n fd j rest hpc =>
    refine (hs.forwardTo n j).congr rfl ?_
    have : (s.forwardTo n j).pc = s.pc := by
      rcases forwardTo_cases n j s with h | ⟨k, h⟩ <;> rw [h]
      rfl
    rw [this, hpc]
    rfl

/-- A report touches the port of its descriptor only. -/
theorem report_spec (s : Server) (fd : ℤ) :
    (fd ≠ s.listenfd → (s.report fd).backlog = s.backlog) ∧
      (fd ≠ s.sigPipefd0 → (s.report fd).signals = s.signals) ∧
      ∀ k, (s.files fd ≠ some (.pipe k) → (s.report fd).child k = s.child k) ∧
        (ChildHeard (s.child k) → ChildHeard ((s.report fd).child k)) := by
  rcases report_cases s fd with ⟨h1, hs⟩ | ⟨h2, hs⟩ | ⟨l, hf, hs⟩ | hs <;> rw [hs]
  · exact ⟨fun h => absurd h1 h, fun _ => rfl, fun _ => ⟨fun _ => rfl, id⟩⟩
  · exact ⟨fun _ => rfl, fun h => absurd h2 h, fun _ => ⟨fun _ => rfl, id⟩⟩
  · refine ⟨fun _ => rfl, fun _ => rfl, fun k => ?_⟩
    rcases eq_or_ne k l with rfl | hkl
    · refine ⟨fun h => absurd hf h, fun h => ?_⟩
      have h' : ChildHeard { s.child k with up := (s.child k).up.report } := h
      simpa [Server.setChild] using h'
    · simp [Server.setChild, hkl]
  · exact ⟨fun _ => rfl, fun _ => rfl, fun _ => ⟨fun _ => rfl, id⟩⟩

theorem foldl_report_spec (ready : List ℤ) (s : Server) :
    (s.listenfd ∉ ready → (ready.foldl Server.report s).backlog = s.backlog) ∧
      (s.sigPipefd0 ∉ ready → (ready.foldl Server.report s).signals = s.signals) ∧
      ∀ k, ((∀ fd ∈ ready, s.files fd ≠ some (.pipe k)) →
          (ready.foldl Server.report s).child k = s.child k) ∧
        (ChildHeard (s.child k) → ChildHeard ((ready.foldl Server.report s).child k)) := by
  induction ready generalizing s with
  | nil => exact ⟨fun _ => rfl, fun _ => rfl, fun _ => ⟨fun _ => rfl, id⟩⟩
  | cons fd ready ih =>
    obtain ⟨h1, h2, h3⟩ := report_spec s fd
    obtain ⟨i1, i2, i3⟩ := ih (s.report fd)
    have hsame := same_report s fd
    rw [hsame.listenfd] at i1
    rw [hsame.sigPipefd0] at i2
    refine ⟨fun h => ?_, fun h => ?_, fun k => ⟨fun h => ?_, fun h => (i3 k).2 ((h3 k).2 h)⟩⟩
    · rw [List.mem_cons, not_or] at h
      exact (i1 h.2).trans (h1 (Ne.symm h.1))
    · rw [List.mem_cons, not_or] at h
      exact (i2 h.2).trans (h2 (Ne.symm h.1))
    · rw [List.forall_mem_cons] at h
      refine ((i3 k).1 fun g hg => ?_).trans ((h3 k).1 h.1)
      rw [hsame.files]
      exact h.2 g hg

theorem Heard.epollWait (h : Heard s) (hr : Roster s) {ready : List ℤ}
    (hstep : s.epollWait ready = some s') : Heard s' := by
  obtain ⟨hpc, rfl⟩ := epollWait_eq hstep
  obtain ⟨h1, h2, h3⟩ := foldl_report_spec ready s
  have hsame := same_foldl_report ready s
  -- the parent waits with nothing to answer, so every port is settled before the reports
  have hbacklog : s.backlog.Settled := by simpa [hpc, ParentPc.events] using h.backlog
  have hsignals : s.signals.Settled := by simpa [hpc, ParentPc.events] using h.signals
  refine ⟨?_, ?_, fun fd k hf => ?_, fun k => (h3 k).2 (h.child k)⟩
  · show (ready.foldl Server.report s).backlog.Settled ∨ (ready.foldl Server.report s).listenfd ∈ ready
    rw [hsame.listenfd]
    by_cases hm : s.listenfd ∈ ready
    · exact .inr hm
    · exact .inl ((h1 hm).symm ▸ hbacklog)
  · show (ready.foldl Server.report s).signals.Settled ∨ (ready.foldl Server.report s).sigPipefd0 ∈ ready
    rw [hsame.sigPipefd0]
    by_cases hm : s.sigPipefd0 ∈ ready
    · exact .inr hm
    · exact .inl ((h2 hm).symm ▸ hsignals)
  · show ((ready.foldl Server.report s).child k).up.Settled ∨ fd ∈ ready
    have hf' : s.files fd = some (.pipe k) := by
      have hfiles := hsame.files
      rw [← hfiles]
      exact hf
    by_cases hm : fd ∈ ready
    · exact .inr hm
    · left
      have hup : (s.child k).up.Settled := by simpa [hpc, ParentPc.events] using h.pipes fd k hf'
      rw [(h3 k).1 fun g hg hg' => ?_]
      · exact hup
      -- only one descriptor leads to the pipe of a child
      · rw [(hr.unreaped fd k hf').2, ← (hr.unreaped g k hg').2] at hm
        exact hm hg

theorem Heard.forkFails (h : Heard s) (connfd pipefd0 pipefd1 : ℤ) :
    Heard ((s.openPipe connfd pipefd0 pipefd1).forkFails pipefd0 pipefd1) := by
  refine ⟨h.backlog, h.signals, fun fd k hf => h.pipes fd k ?_, h.child⟩
  simp only [Server.openPipe, Server.forkFails, Function.update_apply] at hf
  split at hf
  · simp at hf
  · split at hf
    · simp at hf
    · exact hf

theorem Heard.join (h : Heard s) (connfd pipefd0 pipefd1 pid : ℤ) :
    Heard (joined s connfd pipefd0 pipefd1 pid) := by
  refine ⟨h.backlog, h.signals, fun fd k hf => ?_, fun k => ?_⟩
  · rcases eq_or_ne k s.forked with rfl | hk
    · rw [joined_child_self]
      exact .inl settled_empty
    · rw [joined_child_of_ne _ _ _ _ hk]
      refine h.pipes fd k ?_
      simp only [joined, Server.openPipe, Server.join, Function.update_apply] at hf
      split at hf
      · exact absurd (by simpa using hf.symm) hk
      · exact hf
  · rcases eq_or_ne k s.forked with rfl | hk
    · rw [joined_child_self]
      exact fun _ => .inr ⟨.inl settled_empty, .inl settled_empty⟩
    · rw [joined_child_of_ne _ _ _ _ hk]
      exact h.child k

theorem Heard.accept (h : Heard s) (hr : Roster s) {result : Accepted}
    (hdrains : drains s (.accept result) = true) (hstep : s.accept result = some s') : Heard s' := by
  obtain ⟨rest, hpc, rfl⟩ := accept_eq hstep
  have hsig : s.listenfd ≠ s.sigPipefd0 := by
    intro e
    have := hr.sig
    rw [← e, hr.listen] at this
    simp at this
  have hpipe : ∀ k, s.files s.listenfd ≠ some (.pipe k) := by simp [hr.listen]
  cases result with
  | failed =>
    have hb : s.backlog.Settled := by simpa [Port.taken] using Fits.settled (of_decide_eq_true hdrains)
    exact h.pop _ (by rw [hpc]; rfl) rfl (fun _ => hb) (fun e => absurd e hsig)
      fun k hf => absurd hf (hpipe k)
  | connected connfd pipefd0 pipefd1 pid =>
    have ht : Heard { s with backlog := s.backlog.taken 1 } :=
      ⟨h.backlog.imp_left fun h => h.taken 1, h.signals, h.pipes, h.child⟩
    have hp : Heard { s with backlog := s.backlog.taken 1, pc := .batch rest } :=
      ht.pop (.batch rest) (by simp [hpc, ParentPc.events]) rfl
        (fun _ => Fits.settled (of_decide_eq_true hdrains)) (fun e => absurd e hsig)
        fun k hf => absurd hf (hpipe k)
    simp only [Server.acceptBranch]
    split
    · exact hp
    · cases pid with
      | none => exact (hp.forkFails connfd pipefd0 pipefd1).congr rfl rfl
      | some pid =>
        exact (hp.join connfd pipefd0 pipefd1 pid).congr rfl rfl

theorem Heard.reap (h : Heard s) (hr : Roster s) (hk : Unreaped s k) : Heard (s.reap k) := by
  rw [reap_eq hr hk]
  have hc := h.setChild (k := k) (c := { s.child k with pc := .reaped }) id (childHeard_dead rfl)
  refine ⟨hc.backlog, hc.signals, fun fd l hf => hc.pipes fd l ?_, hc.child⟩
  simp only [Function.update_apply] at hf
  split at hf
  · cases hf
  · exact hf

theorem heard_step {e : Event} (h : Heard s) (hr : Roster s) (hok : Legal s e) (hdrains : drains s e = true)
    (hstep : step s e = some s') : Heard s' := by
  cases e with
  | connect =>
    obtain rfl := by simpa [step] using hstep
    exact ⟨.inl (settled_arrive _ _), h.signals, h.pipes, h.child⟩
  | signal sig =>
    obtain rfl := by simpa [step] using hstep
    exact ⟨h.backlog, .inl (settled_arrive _ _), h.pipes, h.child⟩
  | sigHandler =>
    simp only [step] at hstep
    split at hstep
    · obtain rfl := by simpa using hstep
      exact ⟨h.backlog, .inl (settled_arrive _ _), h.pipes, h.child⟩
    · cases hstep
  | clientData k bytes =>
    obtain rfl := by simpa [step] using hstep
    refine h.setChild id fun hrun => ?_
    exact (h.child k hrun).imp_right fun hf => ⟨.inl (settled_arrive _ _), hf.2⟩
  | childTermHandler k =>
    obtain rfl := by simpa [step] using hstep
    refine h.setChild id fun hrun => ?_
    exact (h.child k hrun).imp_left fun hf => ⟨rfl, hf.2⟩
  | childDies k =>
    simp only [step] at hstep
    split at hstep
    · obtain rfl := by simpa using hstep
      refine (h.setChild (k := k) (c := { s.child k with pc := .zombie, up := (s.child k).up.arrive [] })
        (fun _ => settled_arrive _ _) (childHeard_dead rfl)).congr rfl rfl
    · cases hstep
  | epollWait ready => exact h.epollWait hr hstep
  | accept result => exact h.accept hr hdrains hstep
  | waitpid k =>
    cases k with
    | some k =>
      obtain ⟨-, rfl⟩ := waitpid_some_eq hstep
      exact h.reap hr (unreaped_of_zombie hok.1 hok.2)
    | none =>
      obtain ⟨sigs, rest, hpc, rfl⟩ := waitpid_none_eq hstep
      exact h.congr rfl (by rw [hpc]; rfl)
  | parentStep sent => exact (parentStep_move hstep).heard h hr fun _ => hdrains
  | childWait k ready => exact h.childWait hstep
  | childStep k ok =>
    refine (childStep_move hstep).heard h fun hstop => ?_
    cases ok with
    | true => exact hdrains
    | false => exact childStep_false hstep hstop

theorem heard_init (h : Init s) : Heard s := by
  obtain ⟨-, -, -, -, -, -, -, hfiles, hb, hs, -, -, -, hchild⟩ := h
  refine ⟨.inl (hb ▸ settled_empty), .inl (hs ▸ settled_empty), fun fd k hf => absurd hf (hfiles fd k),
    fun k => ?_⟩
  rw [hchild k]
  exact fun _ => .inr ⟨.inl settled_empty, .inl settled_empty⟩

/-- No process in front of `epoll_wait` has input that no event is to come for. -/
structure NothingStranded (s : Server) : Prop where
  parent : s.pc = .wait → s.backlog.Settled ∧ s.signals.Settled ∧
    ∀ fd k, s.files fd = some (.pipe k) → (s.child k).up.Settled
  child : ∀ k, (s.child k).pc = .wait → (s.child k).conn.Settled ∧ (s.child k).pipe.Settled

/-- In a run in which every event is answered by a call that takes all there is, nothing
is stranded. -/
theorem nothing_stranded (h : Reach Init (fun s e => Legal s e ∧ drains s e) step s) : NothingStranded s := by
  have hi := h.invariant (I := fun s => Roster s ∧ Heard s) (fun s hi => ⟨roster_init hi, heard_init hi⟩)
    fun s e s' hi hok hs => ⟨roster_step hi.1 hok.1 hs, heard_step hi.2 hi.1 hok.1 hok.2 hs⟩
  refine ⟨fun hpc => ⟨?_, ?_, fun fd k hf => ?_⟩, fun k hpc => ?_⟩
  · simpa [hpc, ParentPc.events] using hi.2.backlog
  · simpa [hpc, ParentPc.events] using hi.2.signals
  · simpa [hpc, ParentPc.events] using hi.2.pipes fd k hf
  · rcases hi.2.child k (by simp [hpc, ChildPc.running]) with ⟨-, hne⟩ | h2
    · exact absurd hpc hne
    · simpa [hpc, ChildPc.events] using h2

/-- A message of one client of two is on its way to the other. -/
theorem nothing_stranded_message :
    NothingStranded ((play (fun s e => Legal s e ∧ drains s e) step start
      (joinEvents 7 8 9 (some 100) ++ joinEvents 7 9 10 (some 101) ++
        [.childStep 0 true, .clientData 0 [104, 105], .childWait 0 [.conn], .childStep 0 true,
        .childStep 0 true, .childStep 0 true, .childStep 0 true, .childStep 0 true, .epollWait [8],
        .parentStep true, .parentStep true, .parentStep true, .parentStep true, .parentStep true])).get
      (by decide)) :=
  nothing_stranded (reach_of_play init_start (Option.some_get _).symm)

/-- Two connections come before the first `epoll_wait` returns: one is accepted, and the
other waits for a third. -/
theorem connection_stranded : ¬ ∀ s : Server, Reach Init Legal step s → NothingStranded s := by
  intro h
  have hn := h ((play Legal step start [.connect, .connect, .epollWait [3],
    .accept (.connected 7 8 9 (some 100)), .parentStep true]).get (by decide))
    (reach_of_play init_start (Option.some_get _).symm)
  rcases (hn.parent rfl).1 with hqueue | hedge
  · exact absurd (congrArg List.length hqueue) (by decide)
  · exact absurd hedge (by decide)

end LinuxServer.ShmChat
