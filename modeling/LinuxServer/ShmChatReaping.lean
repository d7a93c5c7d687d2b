import LinuxServer.ShmChatStop

/-!
# Children that have ended

One `SIGCHLD` may stand for several children that ended, and its handler may run long after.
As long as the pipe of the signals has room and every `recv` takes all there are, no child
is forgotten, and once the server was told to stop it waits for children that still run, and
for nothing else.
-/

namespace LinuxServer.ShmChat
open Port

variable {s s' : Server} {k : ℕ} {e : Event}

/-- The signals that were read and are not handled to their end. -/
def ParentPc.sigs : ParentPc → List Signal
  | .signals sigs _ => sigs
  | .reap sigs _ => .chld :: sigs
  | _ => []

/-- A `SIGCHLD` is on its way to the `waitpid` loop, or has come there. -/
def Reminded (s : Server) : Prop :=
  s.sigchld = true ∨ .chld ∈ s.signals.queue ∨ .chld ∈ s.pc.sigs

/-- What a step does that neither reads signals nor ends a child. -/
structure SignalsKept (s s' : Server) : Prop where
  sigPipefd0 : s'.sigPipefd0 = s.sigPipefd0
  signals : s'.signals = s.signals
  sigchld : s'.sigchld = s.sigchld
  zombie : ∀ k < s'.forked, (s'.child k).pc.isZombie = true → k < s.forked ∧ (s.child k).pc.isZombie = true
  sigs : .chld ∈ s.pc.sigs → .chld ∈ s'.pc.sigs
  events : s.signals.queue = [] ∨ (s.sigPipefd0 ∈ s.pc.events → s.sigPipefd0 ∈ s'.pc.events)

/-- Something happens to a child other than its end. -/
theorem signalsKept_setChild {c : Child} (h : c.pc.isZombie = true → (s.child k).pc.isZombie = true) :
    SignalsKept s (s.setChild k c) := by
  refine ⟨rfl, rfl, rfl, fun l hl hz => ⟨hl, ?_⟩, id, .inr id⟩
  rcases eq_or_ne l k with rfl | hlk
  · exact h (by simpa [Server.setChild] using hz)
  · simpa [Server.setChild, hlk] using hz

/-- What a step of the parent does with signals. -/
inductive SignalMove (s : Server) : Server → Prop
  | read (rest : List ℤ) (hpc : s.pc = .batch (s.sigPipefd0 :: rest)) : SignalMove s { s with
      pc := .signals (s.signals.queue.take 1024) rest
      signals := s.signals.taken 1024 }
  | keep (s' : Server) (h : SignalsKept s s') : SignalMove s s'

theorem parentStep_signals {sent : Bool} (h : s.parentStep sent = some s') : SignalMove s s' := by
  unfold Server.parentStep at h
  cases hpc : s.pc with
  | wait | reap | done => simp [hpc] at h
  | batch events =>
    cases events with
    | nil =>
      obtain rfl : { s with pc := if s.stopServer then .done else .wait } = s' := by simpa [hpc] using h
      exact .keep _ ⟨rfl, rfl, rfl, fun _ hl hz => ⟨hl, hz⟩, by simp [hpc, ParentPc.sigs],
        .inr (by simp [hpc, ParentPc.events])⟩
    | cons fd rest =>
      by_cases hlisten : fd = s.listenfd
      · simp [hpc, hlisten] at h
      by_cases hsig : fd = s.sigPipefd0
      · subst hsig
        by_cases hq : s.signals.queue = []
        · obtain rfl := by simpa [hpc, hlisten, hq] using h
          exact .keep _ ⟨rfl, rfl, rfl, fun _ hl hz => ⟨hl, hz⟩, by simp [hpc, ParentPc.sigs], .inl hq⟩
        · obtain rfl := by simpa [hpc, hlisten, hq] using h
          exact .read rest hpc
      · have hevents : s.sigPipefd0 ∈ s.pc.events → s.sigPipefd0 ∈ rest := by
          simp [hpc, ParentPc.events, Ne.symm hsig]
        simp only [hpc, hlisten, hsig, if_false] at h
        split at h
        next k hfile =>
          split at h
          next =>
            obtain rfl := by simpa using h
            exact .keep _ ⟨rfl, rfl, rfl, fun _ hl hz => ⟨hl, hz⟩, by simp [hpc, ParentPc.sigs], .inr hevents⟩
          next n q hq =>
            obtain rfl := by simpa using h
            have hset := signalsKept_setChild (s := s) (k := k)
              (c := { s.child k with up := (s.child k).up.taken 1 }) id
            exact .keep _ ⟨rfl, rfl, rfl, hset.zombie, by simp [hpc, ParentPc.sigs], .inr hevents⟩
        next =>
          obtain rfl := by simpa using h
          exact .keep _ ⟨rfl, rfl, rfl, fun _ hl hz => ⟨hl, hz⟩, by simp [hpc, ParentPc.sigs], .inr hevents⟩
  | signals sigs rest =>
    have hevents : s.sigPipefd0 ∈ s.pc.events → s.sigPipefd0 ∈ rest := by simp [hpc, ParentPc.events]
    have hstop : ∀ sig : Signal, sig ≠ .chld → ∀ sigs', sigs = sig :: sigs' →
        SignalsKept s { s.stop with pc := .signals sigs' rest } := by
      rintro sig hsig sigs' rfl
      rcases stop_cases s with hs | hs <;> rw [hs]
      all_goals
        refine ⟨rfl, rfl, rfl, fun _ hl hz => ⟨hl, hz⟩, ?_, .inr hevents⟩
        simp [hpc, ParentPc.sigs, Ne.symm hsig]
    cases sigs with
    | nil =>
      obtain rfl := by simpa [hpc] using h
      exact .keep _ ⟨rfl, rfl, rfl, fun _ hl hz => ⟨hl, hz⟩, by simp [hpc, ParentPc.sigs], .inr hevents⟩
    | cons sig sigs =>
      cases sig with
      | chld | other =>
        obtain rfl := by simpa [hpc] using h
        exact .keep _ ⟨rfl, rfl, rfl, fun _ hl hz => ⟨hl, hz⟩, by simp [hpc, ParentPc.sigs], .inr hevents⟩
      | term =>
        obtain rfl : { s.stop with pc := .signals sigs rest } = s' := by simpa [hpc] using h
        exact .keep _ (hstop .term (by simp) sigs rfl)
      | int =>
        obtain rfl : { s.stop with pc := .signals sigs rest } = s' := by simpa [hpc] using h
        exact .keep _ (hstop .int (by simp) sigs rfl)
  | forward n fd j rest =>
    have hevents : s.sigPipefd0 ∈ s.pc.events → s.sigPipefd0 ∈ rest := by simp [hpc, ParentPc.events]
    simp only [hpc] at h
    split at h
    next hj =>
      split at h
      · obtain rfl := by simpa using h
        rcases forwardTo_cases n j s with hs | ⟨k, hs⟩ <;> rw [hs]
        · exact .keep _ ⟨rfl, rfl, rfl, fun _ hl hz => ⟨hl, hz⟩, by simp [hpc, ParentPc.sigs], .inr hevents⟩
        · have hset := signalsKept_setChild (s := s) (k := k)
            (c := { s.child k with pipe := (s.child k).pipe.arrive [n] }) id
          exact .keep _ ⟨rfl, rfl, rfl, hset.zombie, by simp [hpc, ParentPc.sigs], .inr hevents⟩
      · obtain rfl := by simpa using h
        exact .keep _ ⟨rfl, rfl, rfl, fun _ hl hz => ⟨hl, hz⟩, by simp [hpc, ParentPc.sigs], .inr hevents⟩
    next =>
      obtain rfl := by simpa using h
      exact .keep _ ⟨rfl, rfl, rfl, fun _ hl hz => ⟨hl, hz⟩, by simp [hpc, ParentPc.sigs], .inr hevents⟩

theorem ChildMove.signals (h : ChildMove s k s') : s' = s.childDies k ∨ SignalsKept s s' := by
  cases h with
  | leave => exact .inl rfl
  | _ =>
    refine .inr ⟨rfl, rfl, rfl, fun l hl hz => ⟨hl, ?_⟩, id, .inr id⟩
    rcases eq_or_ne l k with rfl | hlk
    · simp [Server.setChild, Server.memset, Server.store, ChildPc.isZombie] at hz
    · simpa [Server.setChild, Server.memset, Server.store, hlk] using hz

/-- A report changes neither what was sent nor who has ended. -/
theorem foldl_report_signals (ready : List ℤ) (s : Server) :
    (ready.foldl Server.report s).signals.queue = s.signals.queue ∧
      (ready.foldl Server.report s).sigchld = s.sigchld ∧
      ∀ k, ((ready.foldl Server.report s).child k).pc = (s.child k).pc := by
  refine foldl_report (R := fun s s' => s'.signals.queue = s.signals.queue ∧ s'.sigchld = s.sigchld ∧
    ∀ k, (s'.child k).pc = (s.child k).pc) (fun s => ⟨rfl, rfl, fun _ => rfl⟩) ?_ (fun s fd => ?_) ready s
  · rintro s t u ⟨h1, h2, h3⟩ ⟨i1, i2, i3⟩
    exact ⟨i1.trans h1, i2.trans h2, fun k => (i3 k).trans (h3 k)⟩
  · rcases report_cases s fd with ⟨-, h⟩ | ⟨-, h⟩ | ⟨l, -, h⟩ | h <;> rw [h]
    · exact ⟨rfl, rfl, fun _ => rfl⟩
    · exact ⟨rfl, rfl, fun _ => rfl⟩
    · refine ⟨rfl, rfl, fun k => ?_⟩
      rcases eq_or_ne k l with rfl | hkl <;> simp [Server.setChild, *]
    · exact ⟨rfl, rfl, fun _ => rfl⟩

/-! ## No child is forgotten -/

/-- A `recv` of the signals takes all there are, unless more have arrived since. -/
def SignalsFit (s : Server) : Event → Prop
  | .parentStep _ => ∀ fd ∈ s.pc.events.head?, fd = s.sigPipefd0 → s.signals.Fits 1024
  | _ => True

instance (s : Server) (e : Event) : Decidable (SignalsFit s e) := by
  unfold SignalsFit
  split <;> infer_instance

/-- The signals are read in time, and there is one for the children that have ended. -/
structure Tracked (s : Server) : Prop where
  signals : s.signals.Settled ∨ s.sigPipefd0 ∈ s.pc.events
  reminded : ∀ k < s.forked, (s.child k).pc.isZombie = true → Reminded s

theorem Tracked.keep (h : Tracked s) (hs : SignalsKept s s') : Tracked s' := by
  refine ⟨?_, fun k hk hz => ?_⟩
  · rw [hs.signals, hs.sigPipefd0]
    rcases hs.events with hempty | hevents
    · exact .inl (.inl hempty)
    · exact h.signals.imp_right hevents
  · obtain ⟨hk', hz'⟩ := hs.zombie k hk hz
    rw [Reminded, hs.sigchld, hs.signals]
    exact (h.reminded k hk' hz').imp_right (Or.imp_right hs.sigs)

theorem Tracked.childDies (h : Tracked s) : Tracked (s.childDies k) :=
  ⟨h.signals, fun _ _ _ => .inl rfl⟩

theorem Tracked.arrive (h : Tracked s) {sig : Signal} {b : Bool}
    (hb : s.sigchld = true → b = true ∨ sig = .chld) :
    Tracked { s with signals := s.signals.arrive [sig], sigchld := b } := by
  refine ⟨.inl (settled_arrive _ _), fun k hk hz => ?_⟩
  rcases h.reminded k hk hz with hchld | hqueue | hsigs
  · rcases hb hchld with rfl | rfl
    · exact .inl rfl
    · exact .inr (.inl (by simp [Port.arrive]))
  · exact .inr (.inl (by simp [Port.arrive, hqueue]))
  · exact .inr (.inr hsigs)

theorem Tracked.epollWait (h : Tracked s) {ready : List ℤ} (hstep : s.epollWait ready = some s') :
    Tracked s' := by
  obtain ⟨hpc, rfl⟩ := epollWait_eq hstep
  obtain ⟨hqueue, hchld, hchild⟩ := foldl_report_signals ready s
  have hsame := same_foldl_report ready s
  refine ⟨?_, fun k hk hz => ?_⟩
  · show (ready.foldl Server.report s).signals.Settled ∨ (ready.foldl Server.report s).sigPipefd0 ∈ ready
    rw [hsame.sigPipefd0]
    by_cases hm : s.sigPipefd0 ∈ ready
    · exact .inr hm
    · left
      rw [(foldl_report_spec ready s).2.1 hm]
      simpa [hpc, ParentPc.events] using h.signals
  · have hk' : k < s.forked := hsame.forked ▸ hk
    have hz' : (s.child k).pc.isZombie = true := hchild k ▸ hz
    rcases h.reminded k hk' hz' with hc | hq | hsigs
    · exact .inl (hchld.trans hc)
    · exact .inr (.inl (hqueue.symm ▸ hq))
    · simp [hpc, ParentPc.sigs] at hsigs

theorem Tracked.accept (h : Tracked s) (hr : Roster s) {result : Accepted}
    (hstep : s.accept result = some s') : Tracked s' := by
  obtain ⟨rest, hpc, rfl⟩ := accept_eq hstep
  have hne : s.sigPipefd0 ≠ s.listenfd := fun he => by
    have := he ▸ hr.sig
    simp [hr.listen] at this
  have hevents : s.sigPipefd0 ∈ s.pc.events → s.sigPipefd0 ∈ rest := by
    simp [hpc, ParentPc.events, hne]
  have hkept : ∀ t : Server, t.sigPipefd0 = s.sigPipefd0 → t.signals = s.signals → t.sigchld = s.sigchld →
      (∀ k < t.forked, (t.child k).pc.isZombie = true → k < s.forked ∧ (s.child k).pc.isZombie = true) →
      Tracked { t with pc := .batch rest } := by
    intro t h1 h2 h3 h4
    refine h.keep ⟨h1, h2, h3, h4, ?_, .inr hevents⟩
    simp [hpc, ParentPc.sigs]
  have hsame : ∀ k < s.forked, (s.child k).pc.isZombie = true →
      k < s.forked ∧ (s.child k).pc.isZombie = true := fun _ hk hz => ⟨hk, hz⟩
  cases result with
  | failed => exact hkept _ rfl rfl rfl hsame
  | connected connfd pipefd0 pipefd1 pid =>
    simp only [Server.acceptBranch]
    split
    · exact hkept _ rfl rfl rfl hsame
    cases pid with
    | none => exact hkept _ rfl rfl rfl hsame
    | some pid =>
      refine hkept _ rfl rfl rfl fun k hk hz => ?_
      have hk : k < s.forked + 1 := hk
      rcases eq_or_ne k s.forked with rfl | hkf
      · simp [Server.openPipe, Server.join, Server.newChild, ChildPc.isZombie] at hz
      · exact ⟨by omega, by simpa [Server.openPipe, Server.join, hkf] using hz⟩

theorem Tracked.reap (h : Tracked s) {sigs : List Signal} {rest : List ℤ} (hpc : s.pc = .reap sigs rest) :
    Tracked (s.reap k) := by
  obtain ⟨h1, -, h3⟩ := reap_control k s
  have hsignals : (s.reap k).signals = s.signals := by
    simp only [Server.reap]
    split <;> rfl
  refine ⟨?_, fun l _ _ => .inr (.inr ?_)⟩
  · rw [h1, h3, hsignals]
    exact h.signals
  · simp [h1, hpc, ParentPc.sigs]

theorem Tracked.read (h : Tracked s) {rest : List ℤ} (hpc : s.pc = .batch (s.sigPipefd0 :: rest))
    (hfit : s.signals.Fits 1024) : Tracked { s with
      pc := .signals (s.signals.queue.take 1024) rest
      signals := s.signals.taken 1024 } := by
  refine ⟨.inl hfit.settled, fun k hk hz => ?_⟩
  rcases h.reminded k hk hz with hchld | hqueue | hsigs
  · exact .inl hchld
  · rw [← List.take_append_drop 1024 s.signals.queue, List.mem_append] at hqueue
    exact .inr hqueue.symm
  · simp [hpc, ParentPc.sigs] at hsigs

theorem Tracked.step (h : Tracked s) (hr : Roster s) (hok : Legal s e) (hfit : SignalsFit s e)
    (hstep : ShmChat.step s e = some s') : Tracked s' := by
  cases e with
  | connect =>
    obtain rfl := by simpa [ShmChat.step] using hstep
    exact h.keep ⟨rfl, rfl, rfl, fun _ hk hz => ⟨hk, hz⟩, id, .inr id⟩
  | clientData k | childTermHandler k =>
    obtain rfl := by simpa [ShmChat.step] using hstep
    exact h.keep (signalsKept_setChild id)
  | signal sig =>
    obtain rfl := by simpa [ShmChat.step] using hstep
    exact h.arrive .inl
  | sigHandler =>
    simp only [ShmChat.step] at hstep
    split at hstep
    · obtain rfl := by simpa using hstep
      exact h.arrive fun _ => .inr rfl
    · cases hstep
  | childDies k =>
    simp only [ShmChat.step] at hstep
    split at hstep
    · obtain rfl := by simpa using hstep
      exact h.childDies
    · cases hstep
  | epollWait ready => exact h.epollWait hstep
  | accept result => exact h.accept hr hstep
  | waitpid k =>
    cases k with
    | some k =>
      obtain ⟨⟨sigs, rest, hpc⟩, rfl⟩ := waitpid_some_eq hstep
      exact h.reap hpc
    | none =>
      obtain ⟨sigs, rest, hpc, rfl⟩ := waitpid_none_eq hstep
      refine ⟨by simpa [hpc, ParentPc.events] using h.signals, fun k hk hz => ?_⟩
      have hz' : (s.child k).pc.isZombie = true := hz
      simp [hok k hk] at hz'
  | parentStep sent =>
    cases parentStep_signals hstep with
    | read rest hpc => exact h.read hpc (hfit _ (by simp [hpc, ParentPc.events]) rfl)
    | keep s' hs => exact h.keep hs
  | childWait k ready =>
    obtain ⟨hpc, rfl⟩ := childWait_eq hstep
    exact h.keep (signalsKept_setChild (by simp [ChildPc.isZombie]))
  | childStep k =>
    rcases (childStep_move hstep).signals with rfl | hs
    · exact h.childDies
    · exact h.keep hs

theorem tracked_init (h : Init s) : Tracked s := by
  obtain ⟨-, -, -, -, -, -, -, -, -, hsignals, -, hforked, -⟩ := h
  exact ⟨.inl (hsignals ▸ settled_empty), fun k hk => by omega⟩

/-! ## What the server waits for -/

theorem foldl_report_terminate (ready : List ℤ) (s : Server) :
    (ready.foldl Server.report s).terminate = s.terminate := by
  refine foldl_report (R := fun s s' => s'.terminate = s.terminate) (fun _ => rfl)
    (fun h h' => h'.trans h) (fun s fd => ?_) ready s
  rcases report_cases s fd with ⟨-, h⟩ | ⟨-, h⟩ | ⟨k, -, h⟩ | h <;> rw [h]
  rfl

/-- `terminate` is set while somebody is connected, and never cleared. -/
theorem parentStep_terminate {sent : Bool} (h : s.parentStep sent = some s') :
    s'.terminate = s.terminate ∨ s'.terminate = true ∧ s.userCount ≠ 0 := by
  cases parentStep_move h with
  | stop sig sigs rest hpc =>
    by_cases hcount : s.userCount = 0
    · exact .inl (by simp [Server.stop, hcount])
    · exact .inr ⟨by simp [Server.stop, hcount], hcount⟩
  | send n fd j rest hpc hj =>
    left
    rcases forwardTo_cases n j s with h | ⟨k, h⟩ <;> rw [h]
    rfl
  | _ => exact .inl rfl

theorem step_terminate (h : step s e = some s') :
    s'.terminate = s.terminate ∨ s'.terminate = true ∧ s'.userCount = s.userCount ∧ s.userCount ≠ 0 := by
  cases e with
  | connect | signal | clientData | childTermHandler =>
    obtain rfl := by simpa [step] using h
    exact .inl rfl
  | sigHandler | childDies =>
    simp only [step] at h
    split at h
    · obtain rfl := by simpa using h
      exact .inl rfl
    · cases h
  | epollWait ready =>
    obtain ⟨-, rfl⟩ := epollWait_eq h
    exact .inl (foldl_report_terminate ready s)
  | accept result =>
    obtain ⟨rest, -, rfl⟩ := accept_eq h
    left
    cases result with
    | failed => rfl
    | connected connfd pipefd0 pipefd1 pid =>
      simp only [Server.acceptBranch]
      split
      · rfl
      · cases pid <;> rfl
  | waitpid k =>
    left
    cases k with
    | some k =>
      obtain ⟨-, rfl⟩ := waitpid_some_eq h
      simp only [Server.reap]
      split <;> rfl
    | none =>
      obtain ⟨sigs, rest, -, rfl⟩ := waitpid_none_eq h
      rfl
  | parentStep sent =>
    refine (parentStep_terminate h).imp_right fun hset => ⟨hset.1, ?_, hset.2⟩
    exact (parentStep_move h).same.userCount
  | childWait k ready =>
    obtain ⟨-, rfl⟩ := childWait_eq h
    exact .inl rfl
  | childStep k =>
    left
    cases childStep_move h <;> rfl

/-- Once told to stop, the server has somebody to wait for, is about to find out that it
has not, or has set `stop_server`. -/
def Steered (s : Server) : Prop :=
  s.terminate = true → s.stopServer = true ∨ 0 < s.userCount ∨ ∃ sigs rest, s.pc = .reap sigs rest

theorem Steered.step (h : Steered s) (hr : Roster s) (hstep : ShmChat.step s e = some s') : Steered s' := by
  have hcount := hr.count
  rcases step_terminate hstep with hterm | ⟨-, heq, hne⟩
  case inr => exact fun _ => .inr (.inl (by omega))
  intro ht
  have hs := h (hterm ▸ ht)
  cases control_move hstep with
  | same e s' hc =>
    simp only [Server.control, Prod.mk.injEq] at hc
    rw [hc.1, hc.2.1, hc.2.2.1]
    exact hs
  | wait ready s' hpc hc =>
    simp only [Server.control, Prod.mk.injEq] at hc
    rw [hc.2.1, hc.2.2.1]
    rcases hs with hs | hs | ⟨sigs, rest, hs⟩
    · exact .inl hs
    · exact .inr (.inl hs)
    · simp [hpc] at hs
  | accept result rest s' hpc hc =>
    simp only [Server.control, Prod.mk.injEq] at hc
    rw [hc.2.1, hc.2.2.1]
    rcases hs with hs | hs | ⟨sigs, rest', hs⟩
    · exact .inl hs
    · refine .inr (.inl ?_)
      split <;> omega
    · simp [hpc] at hs
  | reap k sigs rest hpc => exact .inr (.inr ⟨sigs, rest, (reap_control k s).1.trans hpc⟩)
  | reaped sigs rest hpc =>
    have ht' : s.terminate = true := ht
    by_cases h0 : s.userCount = 0
    · exact .inl (by simp [ht', h0])
    · exact .inr (.inl (show 0 < s.userCount by omega))
  | parent sent s' hm =>
    rcases hs with hs | hs | ⟨sigs, rest, hpc⟩
    · left
      rcases hm.control with ⟨-, -, h3⟩ | ⟨-, -, h3, -⟩ | ⟨-, -, -, -, h5⟩
      · exact h3.trans hs
      · exact h3.trans hs
      · exact h5
    · exact .inr (.inl (hm.same.userCount ▸ hs))
    · simp [ShmChat.step, Server.parentStep, hpc] at hstep

theorem steered_init (h : Init s) : Steered s := fun ht => by simp [h.2.2.1] at ht

/-- The parent waits, and no signal is on its way to it. -/
def Resting (s : Server) : Prop := s.pc = .wait ∧ s.sigchld = false ∧ s.signals.edge = false

/-- All that have ended are reaped, the users are those that run, and there is one of them
if the server was told to stop. -/
structure CaughtUp (s : Server) : Prop where
  children : ∀ k < s.forked, (s.child k).pc.running = true ∨ (s.child k).pc.isReaped = true
  entries : ∀ i, 0 ≤ i → i < s.userCount →
    ∃ k < s.forked, (s.child k).pc.running = true ∧ Lists s i k
  stopping : s.terminate = true → 0 < s.userCount

/-- In every run in which the signals are read to the end, a parent that waits without a
signal on its way has caught up with its children. -/
theorem resting_caught_up (h : Reach Init (fun s e => Legal s e ∧ SignalsFit s e) step s)
    (hrest : Resting s) : CaughtUp s := by
  obtain ⟨hpc, hchld, hedge⟩ := hrest
  obtain ⟨hr, ht, hs, ho⟩ := h.invariant (I := fun s => Roster s ∧ Tracked s ∧ Steered s ∧ Ordered s)
    (fun s hi => ⟨roster_init hi, tracked_init hi, steered_init hi, ordered_init hi⟩)
    fun s e s' hi hok hstep => ⟨roster_step hi.1 hok.1 hstep, hi.2.1.step hi.1 hok.1 hok.2 hstep,
      hi.2.2.1.step hi.1 hstep, hi.2.2.2.step hok.1 hstep⟩
  -- no edge and nothing at hand, so no signal is left
  have hqueue : s.signals.queue = [] := by
    simpa [hpc, ParentPc.events, Settled, hedge] using ht.signals
  have hno : ∀ k < s.forked, (s.child k).pc.isZombie = false := fun k hk => by
    by_contra hz
    have := ht.reminded k hk (by simpa using hz)
    simp [Reminded, hchld, hqueue, hpc, ParentPc.sigs] at this
  have hrun : ∀ k, Unreaped s k → (s.child k).pc.running = true := fun k hk => by
    have h1 := hno k hk.1
    have h2 := hk.2
    cases hc : (s.child k).pc <;> simp [hc, ChildPc.isZombie, ChildPc.isReaped, ChildPc.running] at h1 h2 ⊢
  refine ⟨fun k hk => ?_, fun i h0 hi => ?_, fun hterm => ?_⟩
  · by_cases hreaped : (s.child k).pc.isReaped = true
    · exact .inr hreaped
    · exact .inl (hrun k ⟨hk, by simpa using hreaped⟩)
  · obtain ⟨k, hk, hl⟩ := hr.entry i h0 hi
    exact ⟨k, hk.1, hrun k hk, hl⟩
  · rcases hs hterm with hstop | hcount | ⟨sigs, rest, hreap⟩
    · exact absurd hpc (ho.stopped hstop).1
    · exact hcount
    · simp [hpc] at hreap

/-- Two clients join, and `SIGTERM` comes; one child leaves and is reaped. -/
theorem resting_caught_up_term : ∃ s : Server, CaughtUp s ∧ s.terminate = true ∧ s.userCount = 1 := by
  let s := (play (fun s e => Legal s e ∧ SignalsFit s e) step start
    (joinEvents 7 8 9 (some 100) ++ joinEvents 7 9 10 (some 101) ++
      [.signal .term, .epollWait [5], .parentStep true, .parentStep true, .parentStep true,
      .parentStep true, .childTermHandler 0, .childStep 0 true] ++ sigchldEvents ++
      [.waitpid (some 0), .waitpid none, .parentStep true, .parentStep true])).get (by decide)
  have hs : Reach Init (fun s e => Legal s e ∧ SignalsFit s e) step s :=
    reach_of_play init_start (Option.some_get _).symm
  exact ⟨s, resting_caught_up hs ⟨rfl, by decide, by decide⟩, by decide, by decide⟩

end LinuxServer.ShmChat
