import LinuxServer.ShmChatEdges

/-!
# The end of the main loop

A signal sets `stop_server` in the middle of a batch of events; those behind it are still
handled, and a connection among them still gets a child.
-/

namespace LinuxServer.ShmChat

variable {s s' : Server} {k : ℕ} {e : Event}

/-- The parent is handling signals. -/
def ParentPc.inSignals : ParentPc → Bool
  | .signals _ _ => true
  | .reap _ _ => true
  | _ => false

/-- A connection is accepted and gets a child. -/
def Joins (s : Server) : Event → Prop
  | .accept (.connected _ _ _ (some _)) => s.userCount < userLimit
  | _ => False

instance (s : Server) : (e : Event) → Decidable (Joins s e)
  | .accept (.connected _ _ _ (some _)) => inferInstanceAs (Decidable (_ < _))
  | .accept (.connected _ _ _ none) => isFalse id
  | .accept .failed => isFalse id
  | .connect => isFalse id
  | .clientData _ _ => isFalse id
  | .signal _ => isFalse id
  | .sigHandler => isFalse id
  | .childTermHandler _ => isFalse id
  | .childDies _ => isFalse id
  | .epollWait _ => isFalse id
  | .waitpid _ => isFalse id
  | .parentStep _ => isFalse id
  | .childWait _ _ => isFalse id
  | .childStep _ _ => isFalse id

/-- No child is forked once `stop_server` is set. -/
def NoLateJoin (s : Server) (e : Event) : Prop := s.stopServer = true → ¬ Joins s e

instance (s : Server) (e : Event) : Decidable (NoLateJoin s e) := inferInstanceAs (Decidable (_ → _))

/-! ## What steers the main loop -/

def Server.control (s : Server) : ParentPc × Bool × ℤ × ℤ :=
  (s.pc, s.stopServer, s.userCount, s.sigPipefd0)

theorem ChildMove.control (h : ChildMove s k s') : s'.control = s.control := by
  cases h <;> rfl

theorem report_control (s : Server) (fd : ℤ) : (s.report fd).control = s.control := by
  rcases report_cases s fd with ⟨-, h⟩ | ⟨-, h⟩ | ⟨k, -, h⟩ | h <;> rw [h] <;> rfl

theorem foldl_report_control (ready : List ℤ) (s : Server) :
    (ready.foldl Server.report s).control = s.control :=
  foldl_report (R := fun s s' => s'.control = s.control) (fun _ => rfl) (fun h h' => h'.trans h)
    report_control ready s

theorem acceptBranch_control (result : Accepted) (s : Server) :
    (s.acceptBranch result).stopServer = s.stopServer ∧ (s.acceptBranch result).sigPipefd0 = s.sigPipefd0 ∧
      (s.acceptBranch result).userCount =
        if Joins s (.accept result) then s.userCount + 1 else s.userCount := by
  match result with
  | .failed => exact ⟨rfl, rfl, rfl⟩
  | .connected connfd pipefd0 pipefd1 pid =>
    by_cases hlimit : userLimit ≤ s.userCount
    · have hge : ¬ s.userCount < userLimit := not_lt.mpr hlimit
      cases pid <;> simp [Server.acceptBranch, hlimit, Joins, hge]
    · have hlt : s.userCount < userLimit := not_le.mp hlimit
      cases pid <;>
        simp [Server.acceptBranch, hlimit, Joins, hlt, Server.openPipe, Server.forkFails, Server.join]

/-- A step of the parent handles the next event, sets `stop_server`, or ends the batch. -/
theorem ParentMove.control (h : ParentMove s s') :
    (s.pc = .batch [] ∧ s'.pc = (if s.stopServer then .done else .wait) ∧ s'.stopServer = s.stopServer) ∨
    ((s'.pc ≠ .wait ∧ s'.pc ≠ .done) ∧ s'.pc.events <:+ s.pc.events ∧ s'.stopServer = s.stopServer ∧
      (s'.pc.inSignals = true → s.pc.inSignals = true ∨ s.pc.events = s.sigPipefd0 :: s'.pc.events)) ∨
    s.pc.inSignals = true ∧ s'.pc.inSignals = true ∧ s'.pc.events = s.pc.events ∧ s.userCount = 0 ∧
      s'.stopServer = true := by
  cases h with
  | again hpc => exact .inl ⟨hpc, rfl, rfl⟩
  | stop sig sigs rest hpc =>
    by_cases hcount : s.userCount = 0
    · refine .inr (.inr ⟨by simp [hpc, ParentPc.inSignals], rfl, by simp [hpc, ParentPc.events], hcount, ?_⟩)
      simp [Server.stop, hcount]
    · refine .inr (.inl ⟨by simp, by simp [hpc, ParentPc.events], ?_, fun _ => .inl ?_⟩)
      · simp [Server.stop, hcount]
      · simp [hpc, ParentPc.inSignals]
  | send n fd j rest hpc hj =>
    refine .inr (.inl ⟨by simp, by simp [hpc, ParentPc.events], ?_, by simp [ParentPc.inSignals]⟩)
    rcases forwardTo_cases n j s with h | ⟨k, h⟩ <;> rw [h]
    rfl
  | signalsEmpty rest hpc | ignore fd rest hpc | pipeRead fd rest k n hpc | skip n fd j rest hpc
    | forwarded n fd j rest hpc | signalsEnd rest hpc =>
    exact .inr (.inl ⟨by simp, by simp [hpc, ParentPc.events], rfl, by simp [ParentPc.inSignals]⟩)
  | signalsRead rest sigs hpc =>
    exact .inr (.inl ⟨by simp, by simp [hpc, ParentPc.events], rfl,
      fun _ => .inr (by simp [hpc, ParentPc.events])⟩)
  | chld sigs rest hpc | other sigs rest hpc =>
    exact .inr (.inl ⟨by simp, by simp [hpc, ParentPc.events], rfl,
      fun _ => .inl (by simp [hpc, ParentPc.inSignals])⟩)

theorem reap_control (k : ℕ) (s : Server) : (s.reap k).pc = s.pc ∧
    (s.reap k).stopServer = s.stopServer ∧ (s.reap k).sigPipefd0 = s.sigPipefd0 := by
  simp only [Server.reap]
  split <;> exact ⟨rfl, rfl, rfl⟩

/-- What a step can do to what steers the main loop. -/
inductive ControlMove (s : Server) : Event → Server → Prop
  | same (e : Event) (s' : Server) (h : s'.control = s.control) (hjoin : ¬ Joins s e) : ControlMove s e s'
  | wait (ready : List ℤ) (s' : Server) (hpc : s.pc = .wait)
      (h : s'.control = { s with pc := .batch ready }.control) : ControlMove s (.epollWait ready) s'
  | accept (result : Accepted) (rest : List ℤ) (s' : Server) (hpc : s.pc = .batch (s.listenfd :: rest))
      (h : s'.control = { s with
        pc := .batch rest
        userCount := if Joins s (.accept result) then s.userCount + 1 else s.userCount }.control) :
      ControlMove s (.accept result) s'
  | reap (k : ℕ) (sigs : List Signal) (rest : List ℤ) (hpc : s.pc = .reap sigs rest) :
      ControlMove s (.waitpid (some k)) (s.reap k)
  | reaped (sigs : List Signal) (rest : List ℤ) (hpc : s.pc = .reap sigs rest) :
      ControlMove s (.waitpid none) { s with
        stopServer := s.stopServer || (s.terminate && s.userCount = 0)
        pc := .signals sigs rest }
  | parent (sent : Bool) (s' : Server) (h : ParentMove s s') : ControlMove s (.parentStep sent) s'

theorem control_move (h : step s e = some s') : ControlMove s e s' := by
  cases e with
  | connect | signal | clientData | childTermHandler =>
    obtain rfl := by simpa [step] using h
    exact .same _ _ rfl id
  | sigHandler =>
    simp only [step] at h
    split at h
    · obtain rfl := by simpa using h
      exact .same _ _ rfl id
    · cases h
  | childDies k =>
    simp only [step] at h
    split at h
    · obtain rfl := by simpa using h
      exact .same _ _ rfl id
    · cases h
  | epollWait ready =>
    obtain ⟨hpc, rfl⟩ := epollWait_eq h
    have hc := foldl_report_control ready s
    simp only [Server.control, Prod.mk.injEq] at hc
    obtain ⟨-, h2, h3, h4⟩ := hc
    exact .wait ready _ hpc (by simp only [Server.control, h2, h3, h4])
  | accept result =>
    obtain ⟨rest, hpc, rfl⟩ := accept_eq h
    obtain ⟨h1, h2, h3⟩ := acceptBranch_control result s
    exact .accept result rest _ hpc (by simp only [Server.control, h1, h2, h3])
  | waitpid k =>
    cases k with
    | some k =>
      obtain ⟨⟨sigs, rest, hpc⟩, rfl⟩ := waitpid_some_eq h
      exact .reap k sigs rest hpc
    | none =>
      obtain ⟨sigs, rest, hpc, rfl⟩ := waitpid_none_eq h
      exact .reaped sigs rest hpc
  | parentStep sent => exact .parent sent _ (parentStep_move h)
  | childWait k ready =>
    obtain ⟨-, rfl⟩ := childWait_eq h
    exact .same _ _ rfl id
  | childStep k => exact .same _ _ (childStep_move h).control id

/-! ## The signals of a batch come once -/

/-- The signals are not among the events behind those being handled, nor among those left
when `stop_server` is set. -/
structure Ordered (s : Server) : Prop where
  nodup : s.pc.events.Nodup
  past : s.pc.inSignals = true → s.sigPipefd0 ∉ s.pc.events
  stopped : s.stopServer = true → s.pc ≠ .wait ∧ s.sigPipefd0 ∉ s.pc.events
  ended : s.pc = .done → s.stopServer = true

theorem Ordered.congr (h : Ordered s) (hc : s'.control = s.control) : Ordered s' := by
  simp only [Server.control, Prod.mk.injEq] at hc
  obtain ⟨h1, h2, -, h4⟩ := hc
  exact ⟨h1 ▸ h.nodup, h1 ▸ h4 ▸ h.past, h1 ▸ h2 ▸ h4 ▸ h.stopped, h1 ▸ h2 ▸ h.ended⟩

theorem Ordered.step (h : Ordered s) (hok : Legal s e) (hstep : ShmChat.step s e = some s') : Ordered s' := by
  cases control_move hstep with
  | same e s' hc => exact h.congr hc
  | wait ready s' hpc hc =>
    refine Ordered.congr (s := { s with pc := .batch ready })
      ⟨hok.1, fun hi => ?_, fun hs => ?_, fun hd => ?_⟩ hc
    · simp [ParentPc.inSignals] at hi
    · exact absurd hpc (h.stopped hs).1
    · cases hd
  | accept result rest s' hpc hc =>
    have hev : s.pc.events = s.listenfd :: rest := by simp [hpc, ParentPc.events]
    refine Ordered.congr (s := { s with pc := .batch rest, userCount := _ })
      ⟨?_, fun hi => ?_, fun hs => ?_, fun hd => ?_⟩ hc
    · exact (List.nodup_cons.mp (hev ▸ h.nodup)).2
    · simp [ParentPc.inSignals] at hi
    · have := (h.stopped hs).2
      rw [hev] at this
      exact ⟨by simp, fun hm => this (by simp [show s.sigPipefd0 ∈ rest from hm])⟩
    · cases hd
  | reap k sigs rest hpc =>
    obtain ⟨h1, h2, h3⟩ := reap_control k s
    exact ⟨h1 ▸ h.nodup, h1 ▸ h3 ▸ h.past, h1 ▸ h2 ▸ h3 ▸ h.stopped, h1 ▸ h2 ▸ h.ended⟩
  | reaped sigs rest hpc =>
    have hev : s.pc.events = rest := by simp [hpc, ParentPc.events]
    have hpast : s.sigPipefd0 ∉ rest := hev ▸ h.past (by simp [hpc, ParentPc.inSignals])
    exact ⟨hev ▸ h.nodup, fun _ => hpast, fun _ => ⟨by simp, hpast⟩, fun hd => by cases hd⟩
  | parent sent s' hm =>
    have hsig := hm.same.sigPipefd0
    rcases hm.control with ⟨h1, h2, h3⟩ | ⟨⟨h1, h0⟩, h2, h3, h4⟩ | ⟨h1, h2, h3, -, h5⟩
    · have hev : s'.pc.events = [] := by rw [h2]; split <;> rfl
      refine ⟨by simp [hev], fun _ => by simp [hev], fun hs => ⟨?_, by simp [hev]⟩, fun hd => ?_⟩
      · rw [h2, if_pos (h3 ▸ hs)]
        simp
      · by_contra hs
        rw [h2, if_neg (h3 ▸ hs)] at hd
        cases hd
    · refine ⟨h.nodup.sublist h2.sublist, fun hi => ?_, fun hs => ⟨h1, fun hm => ?_⟩, fun hd => absurd hd h0⟩
      · rw [hsig]
        rcases h4 hi with hi | hev
        · exact fun hm => h.past hi (h2.subset hm)
        · exact (List.nodup_cons.mp (hev ▸ h.nodup)).1
      · rw [hsig] at hm
        exact (h.stopped (h3 ▸ hs)).2 (h2.subset hm)
    · have hpast := h.past h1
      rw [← h3, ← hsig] at hpast
      refine ⟨h3 ▸ h.nodup, fun _ => hpast, fun _ => ⟨fun hw => ?_, hpast⟩, fun _ => h5⟩
      simp [hw, ParentPc.inSignals] at h2

theorem ordered_init (h : Init s) : Ordered s := by
  obtain ⟨hpc, hstop, -⟩ := h
  exact ⟨by simp [hpc, ParentPc.events], fun hi => by simp [hpc, ParentPc.inSignals] at hi,
    fun hs => by simp [hstop] at hs, fun hd => by simp [hpc] at hd⟩

/-! ## With a late join, and without -/

/-- Without one, `stop_server` is only set while nobody is connected. -/
def Deserted (s : Server) : Prop := s.stopServer = true → s.userCount = 0

theorem Deserted.congr (h : Deserted s) (hc : s'.control = s.control) : Deserted s' := by
  simp only [Server.control, Prod.mk.injEq] at hc
  obtain ⟨-, h2, h3, -⟩ := hc
  exact fun hs => h3.trans (h (h2 ▸ hs))

theorem Deserted.step (h : Deserted s) (hr : Roster s) (hok : Legal s e) (hlate : NoLateJoin s e)
    (hstep : ShmChat.step s e = some s') : Deserted s' := by
  cases control_move hstep with
  | same e s' hc => exact h.congr hc
  | wait ready s' hpc hc => exact Deserted.congr (s := { s with pc := .batch ready }) h hc
  | accept result rest s' hpc hc =>
    refine Deserted.congr (s := { s with pc := .batch rest, userCount := _ }) (fun hs => ?_) hc
    rw [if_neg (hlate hs)]
    exact h hs
  | reap k sigs rest hpc =>
    -- a child to reap would be in the roster
    intro hs
    have hk := unreaped_of_zombie hok.1 hok.2
    have h0 := h ((reap_control k s).2.1 ▸ hs)
    have h1 := hr.slot_pos k hk
    have h2 := hr.slot_lt k hk
    omega
  | reaped sigs rest hpc =>
    intro hs
    rcases Bool.or_eq_true_iff.mp hs with hs | hs
    · exact h hs
    · simpa using (Bool.and_eq_true_iff.mp hs).2
  | parent sent s' hm =>
    intro hs
    rw [hm.same.userCount]
    rcases hm.control with ⟨-, -, h3⟩ | ⟨-, -, h3, -⟩ | ⟨-, -, -, h4, -⟩
    · exact h (h3 ▸ hs)
    · exact h (h3 ▸ hs)
    · exact h4

/-- With one, the batch ends before the next signals are read. -/
structure Abandoned (s : Server) : Prop where
  stopServer : s.stopServer = true
  count : 0 < s.userCount
  pc : s.pc ≠ .wait ∧ s.pc.inSignals = false
  sig : s.sigPipefd0 ∉ s.pc.events

theorem Abandoned.congr (h : Abandoned s) (hc : s'.control = s.control) : Abandoned s' := by
  simp only [Server.control, Prod.mk.injEq] at hc
  obtain ⟨h1, h2, h3, h4⟩ := hc
  exact ⟨h2 ▸ h.stopServer, h3 ▸ h.count, h1 ▸ h.pc, h1 ▸ h4 ▸ h.sig⟩

theorem Abandoned.step (h : Abandoned s) (hstep : ShmChat.step s e = some s') : Abandoned s' := by
  cases control_move hstep with
  | same e s' hc => exact h.congr hc
  | wait ready s' hpc hc => exact absurd hpc h.pc.1
  | accept result rest s' hpc hc =>
    have hsig := h.sig
    rw [show s.pc.events = s.listenfd :: rest by simp [hpc, ParentPc.events]] at hsig
    refine Abandoned.congr (s := { s with pc := .batch rest, userCount := _ })
      ⟨h.stopServer, ?_, ⟨by simp, rfl⟩, fun hm => hsig (List.mem_cons_of_mem _ hm)⟩ hc
    have := h.count
    show 0 < if Joins s (.accept result) then s.userCount + 1 else s.userCount
    split <;> omega
  | reap k sigs rest hpc => simpa [hpc, ParentPc.inSignals] using h.pc.2
  | reaped sigs rest hpc => simpa [hpc, ParentPc.inSignals] using h.pc.2
  | parent sent s' hm =>
    have hsame := hm.same
    have hcount : 0 < s'.userCount := hsame.userCount ▸ h.count
    rcases hm.control with ⟨h1, h2, h3⟩ | ⟨⟨h1, -⟩, h2, h3, h4⟩ | ⟨h1, -⟩
    · rw [if_pos h.stopServer] at h2
      exact ⟨h3 ▸ h.stopServer, hcount, by simp [h2, ParentPc.inSignals], by simp [h2, ParentPc.events]⟩
    · refine ⟨h3 ▸ h.stopServer, hcount, ⟨h1, ?_⟩, fun hm' => h.sig ?_⟩
      · by_contra hi
        rcases h4 (by simpa using hi) with hi | hev
        · simp [h.pc.2] at hi
        · exact h.sig (by simp [hev])
      · rw [hsame.sigPipefd0] at hm'
        exact h2.subset hm'
    · simp [h.pc.2] at h1

theorem abandoned_of_late (h : Ordered s) (hc : 0 ≤ s.userCount) (hlate : ¬ NoLateJoin s e)
    (hstep : ShmChat.step s e = some s') : Abandoned s' := by
  obtain ⟨hs, hjoin⟩ : s.stopServer = true ∧ Joins s e := by simpa [NoLateJoin] using hlate
  cases control_move hstep with
  | accept result rest s' hpc hc' =>
    have hsig := (h.stopped hs).2
    rw [show s.pc.events = s.listenfd :: rest by simp [hpc, ParentPc.events]] at hsig
    refine Abandoned.congr (s := { s with pc := .batch rest, userCount := _ })
      ⟨hs, ?_, ⟨by simp, rfl⟩, fun hm => hsig (List.mem_cons_of_mem _ hm)⟩ hc'
    show 0 < if Joins s (.accept result) then s.userCount + 1 else s.userCount
    rw [if_pos hjoin]
    omega
  | same e s' hc hno => exact absurd hjoin hno
  | wait | reap | reaped | parent => exact hjoin.elim

/-! ## Runs -/

/-- When the main loop has ended, nobody is connected and all children are reaped, just if
no child was forked after `stop_server` was set. -/
theorem stopped_clean_iff {s0 : Server} {es : List Event} (h0 : Init s0) (hrun : Exec Legal step s0 es s)
    (hdone : s.pc = .done) : (s.userCount = 0 ∧ ∀ k < s.forked, (s.child k).pc.isReaped = true) ↔
      Exec (fun s e => Legal s e ∧ NoLateJoin s e) step s0 es s := by
  have hr : Roster s := roster_reach (fun _ _ h => h) ((Reach.start h0).exec hrun)
  constructor
  · rintro ⟨hcount, -⟩
    -- a late join would have left somebody connected
    refine (hrun.keeps_or_marked (P := NoLateJoin) (I := fun s => Roster s ∧ Ordered s) (D := Abandoned)
      ?_ ?_ ?_ ⟨roster_init h0, ordered_init h0⟩).resolve_right fun ha => ?_
    · exact fun s e s' hi hok hstep => ⟨roster_step hi.1 hok hstep, hi.2.step hok hstep⟩
    · exact fun s e s' hi _ hlate hstep => abandoned_of_late hi.2 hi.1.count hlate hstep
    · exact fun s e s' ha _ hstep => ha.step hstep
    · have := ha.count
      omega
  · intro hclean
    obtain ⟨-, hd⟩ := hclean.invariant (I := fun s => Roster s ∧ Deserted s)
      (fun s e s' hi hok hstep => ⟨roster_step hi.1 hok.1 hstep, hi.2.step hi.1 hok.1 hok.2 hstep⟩)
      ⟨roster_init h0, fun hs => absurd hs (by simp [h0.2.1])⟩
    have ho : Ordered s :=
      hrun.invariant (I := Ordered) (fun _ _ _ hi hok hs => hi.step hok hs) (ordered_init h0)
    have hcount := hd (ho.ended hdone)
    refine ⟨hcount, fun k hk => ?_⟩
    by_contra hno
    have hun : Unreaped s k := ⟨hk, by simpa using hno⟩
    have h1 := hr.slot_pos k hun
    have h2 := hr.slot_lt k hun
    omega

/-- A client joins, `SIGTERM` arrives, the child is killed and reaped. -/
def stopEvents : List Event :=
  joinEvents 7 8 9 (some 100) ++ [.signal .term, .epollWait [5], .parentStep true, .parentStep true,
    .parentStep true, .parentStep true, .childDies 0] ++ sigchldEvents ++
    [.waitpid (some 0), .waitpid none, .parentStep true, .parentStep true]

theorem stopped_clean_one : ∃ s : Server, Exec Legal step start stopEvents s ∧ s.forked = 1 ∧
    s.userCount = 0 ∧ ∀ k < s.forked, (s.child k).pc.isReaped = true := by
  let s := (play (fun s e => Legal s e ∧ NoLateJoin s e) step start stopEvents).get (by decide)
  have hclean : Exec (fun s e => Legal s e ∧ NoLateJoin s e) step start stopEvents s :=
    exec_of_play (Option.some_get _).symm
  have hrun : Exec Legal step start stopEvents s := hclean.mono fun _ _ h => h.1
  exact ⟨s, hrun, by decide, (stopped_clean_iff init_start hrun rfl).mpr hclean⟩

/-- `SIGTERM` and a connection in one batch: `stop_server` is set, the connection accepted
and a child forked, which the parent leaves behind. -/
theorem stopped_unclean : ∃ s : Server, Reach Init Legal step s ∧ s.pc = .done ∧ s.stopServer = true ∧
    s.userCount = 1 ∧ s.forked = 1 ∧ (s.child 0).pc.isReaped = false := by
  let s := (play Legal step start [.connect, .signal .term, .epollWait [5, 3], .parentStep true,
    .parentStep true, .parentStep true, .accept (.connected 7 8 9 (some 100)), .parentStep true]).get
    (by decide)
  have hs : Reach Init Legal step s := reach_of_play init_start (Option.some_get _).symm
  exact ⟨s, hs, rfl, by decide, by decide, by decide, by decide⟩

end LinuxServer.ShmChat
