import LinuxServer.IdleServerOwnership
import LinuxServer.EdgePort

/-!
# The event loop of `11-3_close_nonactive_connection.cpp`

The loop around the branches: `epoll_wait` with its list of events, the signals that the
handler writes to `pipefd`, the flags `timeout` and `stop_server`, and `alarm`.  An
interrupted `epoll_wait` is one that returns nothing, and events without `EPOLLIN`, which do
nothing, are left out.  Handlers run between any two steps, and only `alarm` makes
`SIGALRM`s.
-/

namespace LinuxServer.IdleServer
open TimerList

/-- The signals of `addsig`. -/
inductive Signal
  | alrm
  | term
  deriving DecidableEq, Repr

/-- Where the loop is: in `epoll_wait`, with a list of descriptors to handle, or left. -/
inductive Pc
  | wait
  | batch (events : List ℤ)
  | done
  deriving DecidableEq, Repr

/-- The local variables of `main`, whether the alarm is set, the signals that wait for their
handler, and what waits on the descriptors of the server. -/
structure Loop where
  server : Server
  listenfd : ℤ
  pipefd0 : ℤ
  pc : Pc
  stopServer : Bool
  timeout : Bool
  alarm : Bool
  caught : Signal → Bool
  signals : Port Signal
  backlog : Port Unit

/-- What happens next; `sent` says whether the `send` of the handler gets through. -/
inductive Input
  | connect
  | alarm
  | kill
  | handler (sig : Signal) (sent : Bool)
  | epollWait (ready : List ℤ)
  | accept (connfd : ℤ) (addr : ℕ) (now : ℤ)
  | recvSignals
  | recv (ret : RecvResult) (now : ℤ)
  | endBatch (now : ℤ)
  deriving DecidableEq, Repr

namespace Loop

/-- `epoll_wait` returns a descriptor. -/
def report (l : Loop) (fd : ℤ) : Loop :=
  if fd = l.listenfd then { l with backlog := l.backlog.report }
  else if fd = l.pipefd0 then { l with signals := l.signals.report }
  else l

/-- The branch of `pipefd[0]`; a `recv` that finds nothing is skipped. -/
def recvSignals (l : Loop) (rest : List ℤ) : Loop :=
  let signals := l.signals.queue.take 1024
  { l with
    pc := .batch rest
    signals := l.signals.taken 1024
    timeout := l.timeout || signals.contains .alrm
    stopServer := l.stopServer || signals.contains .term }

/-- Behind the loop over the events. -/
def endBatch (l : Loop) (now : ℤ) : Option Loop := do
  let pc := if l.stopServer then .done else .wait
  if l.timeout then
    let server ← l.server.timerHandler now
    some { l with server := server, alarm := true, timeout := false, pc := pc }
  else some { l with pc := pc }

end Loop

def turn (l : Loop) : Input → Option Loop
  | .connect => some { l with backlog := l.backlog.arrive [()] }
  | .alarm =>
    if l.alarm then some { l with alarm := false, caught := Function.update l.caught .alrm true } else none
  | .kill => some { l with caught := Function.update l.caught .term true }
  | .handler sig sent =>
    if l.caught sig then some { l with
      caught := Function.update l.caught sig false
      signals := if sent then l.signals.arrive [sig] else l.signals }
    else none
  | .epollWait ready =>
    match l.pc with
    | .wait => some { ready.foldl Loop.report l with pc := .batch ready }
    | _ => none
  | .accept connfd addr now =>
    match l.pc with
    | .batch (fd :: rest) =>
      if fd = l.listenfd then do
        let server ← l.server.accept connfd addr now
        some { l with server := server, backlog := l.backlog.taken 1, pc := .batch rest }
      else none
    | _ => none
  | .recvSignals =>
    match l.pc with
    | .batch (fd :: rest) => if fd ≠ l.listenfd ∧ fd = l.pipefd0 then some (l.recvSignals rest) else none
    | _ => none
  | .recv ret now =>
    match l.pc with
    | .batch (fd :: rest) =>
      if fd ≠ l.listenfd ∧ fd ≠ l.pipefd0 then do
        let server ← l.server.recv fd ret now
        some { l with server := server, pc := .batch rest }
      else none
    | _ => none
  | .endBatch now =>
    match l.pc with
    | .batch [] => l.endBatch now
    | _ => none

/-- In front of the loop, where `alarm` was called. -/
def LoopInit (l : Loop) : Prop :=
  Init l.server ∧ l.listenfd ≠ l.pipefd0 ∧ l.pc = .wait ∧ l.stopServer = false ∧ l.timeout = false ∧
    l.alarm = true ∧ (∀ sig, l.caught sig = false) ∧ l.signals = .empty ∧ l.backlog = .empty

/-- What the system promises: `epoll_wait` returns descriptors that are registered, once
each, those of the server after an arrival; `accept` returns -1 or a new descriptor and `new`
new memory; time does not run backwards; `pipefd` has room for two signals. -/
def LoopLegal (l : Loop) : Input → Prop
  | .handler _ sent => sent = true ∨ 1 < l.signals.queue.length
  | .epollWait ready => ready.Nodup ∧ ∀ fd ∈ ready,
      fd = l.listenfd ∧ l.backlog.edge = true ∨ fd = l.pipefd0 ∧ l.signals.edge = true ∨
        fd ≠ l.listenfd ∧ fd ≠ l.pipefd0 ∧ l.server.conns fd ≠ none
  | .accept connfd addr now =>
    connfd ≠ l.listenfd ∧ connfd ≠ l.pipefd0 ∧ Legal l.server (.accept connfd addr now)
  | .recv _ now => l.server.clock ≤ now
  | .endBatch now => l.server.clock ≤ now
  | _ => True

instance (l : Loop) : (i : Input) → Decidable (LoopLegal l i)
  | .epollWait _ => inferInstanceAs (Decidable (_ ∧ ∀ fd ∈ _, _))
  | .accept connfd addr now => inferInstanceAs (Decidable (_ ∧ _ ∧ Legal l.server (.accept connfd addr now)))
  | .recv _ _ => inferInstanceAs (Decidable (_ ≤ _))
  | .endBatch _ => inferInstanceAs (Decidable (_ ≤ _))
  | .connect => isTrue trivial
  | .alarm => isTrue trivial
  | .kill => isTrue trivial
  | .handler _ _ => inferInstanceAs (Decidable (_ ∨ _))
  | .recvSignals => isTrue trivial

def Pc.events : Pc → List ℤ
  | .batch events => events
  | _ => []

variable {l l' : Loop} {i : Input}

/-! ## The loop and its branches -/

/-- `epoll_wait` marks arrivals as reported, and nothing else. -/
theorem foldl_report (ready : List ℤ) (l : Loop) : ∃ backlog signals,
    ready.foldl Loop.report l = { l with backlog := backlog, signals := signals } ∧
      signals.queue = l.signals.queue ∧
      (l.pipefd0 ∈ ready → l.listenfd ≠ l.pipefd0 → signals.edge = false) ∧
      (l.pipefd0 ∉ ready → signals.edge = l.signals.edge) := by
  induction ready generalizing l with
  | nil => exact ⟨l.backlog, l.signals, rfl, rfl, by simp, by simp⟩
  | cons fd ready ih =>
    rw [List.foldl_cons]
    by_cases hl : fd = l.listenfd
    · have hone : l.report fd = { l with backlog := l.backlog.report } := if_pos hl
      obtain ⟨backlog, signals, h1, h2, h3, h4⟩ := ih (l.report fd)
      rw [hone] at h1 h2 h3 h4 ⊢
      refine ⟨backlog, signals, h1, h2, fun hm hne => ?_, fun hm => h4 fun h => hm (by simp [h])⟩
      rcases List.mem_cons.mp hm with he | hm
      · exact absurd (hl ▸ he).symm hne
      · exact h3 hm hne
    · by_cases hp : fd = l.pipefd0
      · have hone : l.report fd = { l with signals := l.signals.report } := by
          rw [Loop.report, if_neg hl, if_pos hp]
        obtain ⟨backlog, signals, h1, h2, h3, h4⟩ := ih (l.report fd)
        rw [hone] at h1 h2 h3 h4 ⊢
        refine ⟨backlog, signals, h1, h2, fun _ hne => ?_, fun hm => absurd (by simp [hp]) hm⟩
        by_cases hm : l.pipefd0 ∈ ready
        · exact h3 hm hne
        · exact h4 hm
      · have hone : l.report fd = l := by rw [Loop.report, if_neg hl, if_neg hp]
        obtain ⟨backlog, signals, h1, h2, h3, h4⟩ := ih (l.report fd)
        rw [hone] at h1 h2 h3 h4 ⊢
        refine ⟨backlog, signals, h1, h2, fun hm hne => ?_, fun hm => h4 fun h => hm (by simp [h])⟩
        rcases List.mem_cons.mp hm with he | hm
        · exact absurd he.symm hp
        · exact h3 hm hne

/-- What a step of the loop does. -/
inductive Turned (l : Loop) : Input → Loop → Prop
  | connect : Turned l .connect { l with backlog := l.backlog.arrive [()] }
  | alarm (h : l.alarm = true) :
      Turned l .alarm { l with alarm := false, caught := Function.update l.caught .alrm true }
  | kill : Turned l .kill { l with caught := Function.update l.caught .term true }
  | handler (sig : Signal) (sent : Bool) (h : l.caught sig = true) :
      Turned l (.handler sig sent) { l with
        caught := Function.update l.caught sig false
        signals := if sent then l.signals.arrive [sig] else l.signals }
  | epollWait (ready : List ℤ) (h : l.pc = .wait) :
      Turned l (.epollWait ready) { ready.foldl Loop.report l with pc := .batch ready }
  | accept (connfd : ℤ) (addr : ℕ) (now : ℤ) (rest : List ℤ) (server : Server)
      (hpc : l.pc = .batch (l.listenfd :: rest)) (h : l.server.accept connfd addr now = some server) :
      Turned l (.accept connfd addr now)
        { l with server := server, backlog := l.backlog.taken 1, pc := .batch rest }
  | recvSignals (rest : List ℤ) (hpc : l.pc = .batch (l.pipefd0 :: rest)) :
      Turned l .recvSignals (l.recvSignals rest)
  | recv (ret : RecvResult) (now fd : ℤ) (rest : List ℤ) (server : Server) (hpc : l.pc = .batch (fd :: rest))
      (hlisten : fd ≠ l.listenfd) (hpipe : fd ≠ l.pipefd0) (h : l.server.recv fd ret now = some server) :
      Turned l (.recv ret now) { l with server := server, pc := .batch rest }
  | timer (now : ℤ) (server : Server) (hpc : l.pc = .batch []) (htimeout : l.timeout = true)
      (h : l.server.timerHandler now = some server) :
      Turned l (.endBatch now) { l with
        server := server
        alarm := true
        timeout := false
        pc := if l.stopServer then .done else .wait }
  | again (now : ℤ) (hpc : l.pc = .batch []) (htimeout : l.timeout = false) :
      Turned l (.endBatch now) { l with pc := if l.stopServer then .done else .wait }

theorem turned (h : turn l i = some l') : Turned l i l' := by
  cases i with
  | connect =>
    obtain rfl := Option.some.inj h
    exact .connect
  | alarm =>
    by_cases ha : l.alarm = true
    · rw [turn, if_pos ha] at h
      obtain rfl := Option.some.inj h
      exact .alarm ha
    · rw [turn, if_neg ha] at h
      cases h
  | kill =>
    obtain rfl := Option.some.inj h
    exact .kill
  | handler sig sent =>
    by_cases hc : l.caught sig = true
    · rw [turn, if_pos hc] at h
      obtain rfl := Option.some.inj h
      exact .handler sig sent hc
    · rw [turn, if_neg hc] at h
      cases h
  | epollWait ready =>
    simp only [turn] at h
    split at h
    next hpc =>
      obtain rfl := Option.some.inj h
      exact .epollWait ready hpc
    next => cases h
  | accept connfd addr now =>
    simp only [turn] at h
    split at h
    next fd rest hpc =>
      split at h
      next hfd =>
        subst hfd
        obtain ⟨server, hs, h⟩ := Option.bind_eq_some_iff.mp h
        obtain rfl := Option.some.inj h
        exact .accept connfd addr now rest server hpc hs
      next => cases h
    next => cases h
  | recvSignals =>
    simp only [turn] at h
    split at h
    next fd rest hpc =>
      split at h
      next hfd =>
        obtain ⟨-, rfl⟩ := hfd
        obtain rfl := Option.some.inj h
        exact .recvSignals rest hpc
      next => cases h
    next => cases h
  | recv ret now =>
    simp only [turn] at h
    split at h
    next fd rest hpc =>
      split at h
      next hfd =>
        obtain ⟨server, hs, h⟩ := Option.bind_eq_some_iff.mp h
        obtain rfl := Option.some.inj h
        exact .recv ret now fd rest server hpc hfd.1 hfd.2 hs
      next => cases h
    next => cases h
  | endBatch now =>
    simp only [turn] at h
    split at h
    next hpc =>
      by_cases ht : l.timeout = true
      · rw [Loop.endBatch, if_pos ht] at h
        obtain ⟨server, hs, h⟩ := Option.bind_eq_some_iff.mp h
        obtain rfl := Option.some.inj h
        exact .timer now server hpc ht hs
      · rw [Loop.endBatch, if_neg ht] at h
        obtain rfl := Option.some.inj h
        exact .again now hpc (by simpa using ht)
    next => cases h

/-! ## Refinement -/

variable {s s' : Server} {xs : List ℕ} {fd sockfd cur : ℤ}

/-- A branch of a client changes no other connection. -/
theorem Tidy.recv_conns {ret : RecvResult} (h : Tidy s xs) (hopen : s.conns sockfd ≠ none)
    (hstep : s.recv sockfd ret cur = some s') (hfd : fd ≠ sockfd) : s'.conns fd = s.conns fd := by
  obtain ⟨c, hc⟩ := Option.ne_none_iff_exists'.mp hopen
  obtain ⟨a, -, ho⟩ := h.conn sockfd c hc
  have hsock : (s.users sockfd).sockfd = sockfd := by rw [ho.user]
  cases ret with
  | data =>
    simp only [Server.recv, Server.clientData, Option.bind_eq_bind, Option.bind_eq_some_iff] at hstep
    obtain ⟨_, -, hs⟩ := hstep
    rw [← Option.some.inj hs]
    exact Function.update_of_ne hfd _ _
  | again =>
    rw [← Option.some.inj hstep]
  | eof | error =>
    simp only [Server.recv, Server.closeClient, Server.cbFunc, hsock, Option.bind_eq_bind,
      Option.bind_eq_some_iff] at hstep
    obtain ⟨_, -, hs⟩ := hstep
    rw [← Option.some.inj hs]
    exact Function.update_of_ne hfd _ _

theorem foldl_fire_none (cur : ℤ) (ud : ℕ → ℤ) (ys : List ℕ) (h : s.conns fd = none) :
    (ys.foldl (fun s a => s.fire cur a (ud a)) s).conns fd = none := by
  induction ys generalizing s with
  | nil => exact h
  | cons a ys ih =>
    apply ih
    simp only [Server.fire, Server.cbFunc, Function.update_apply, h]
    exact ite_self _

theorem Tidy.timerHandler_none (h : Tidy s xs) (hstep : s.timerHandler cur = some s')
    (hfd : s.conns fd = none) : s'.conns fd = none := by
  rw [(timerHandler_spec h.holds hstep).1]
  exact foldl_fire_none cur _ _ hfd

/-- What the loop keeps: its branches run as those of the server, its own descriptors are no
connections, and its events are for different descriptors that are all open. -/
structure Current (l : Loop) : Prop where
  reach : Reach Init Legal step l.server
  fds : l.listenfd ≠ l.pipefd0
  listenfd : l.server.conns l.listenfd = none
  pipefd0 : l.server.conns l.pipefd0 = none
  nodup : l.pc.events.Nodup
  isOpen : ∀ fd ∈ l.pc.events, fd ≠ l.listenfd → fd ≠ l.pipefd0 → l.server.conns fd ≠ none

theorem current_init (h : LoopInit l) : Current l := by
  obtain ⟨hi, hfds, hpc, -⟩ := h
  refine ⟨.start hi, hfds, ?_, ?_, by simp [hpc, Pc.events], by simp [hpc, Pc.events]⟩ <;> simp [hi.2.1]

/-- The events of `l'` were events of `l` before, for the same connections. -/
structure Behind (l l' : Loop) : Prop where
  listenfd : l'.listenfd = l.listenfd
  pipefd0 : l'.pipefd0 = l.pipefd0
  events : l'.pc.events.Sublist l.pc.events
  conns : ∀ fd ∈ l'.pc.events, fd ≠ l.listenfd → fd ≠ l.pipefd0 → l'.server.conns fd = l.server.conns fd

theorem behind_refl (l : Loop) : Behind l l := ⟨rfl, rfl, .refl _, fun _ _ _ _ => rfl⟩

theorem Behind.trans {l'' : Loop} (h : Behind l l') (h' : Behind l' l'') : Behind l l'' := by
  refine ⟨h'.listenfd.trans h.listenfd, h'.pipefd0.trans h.pipefd0, h'.events.trans h.events, ?_⟩
  intro fd hm hne hne'
  rw [h'.conns fd hm (h.listenfd ▸ hne) (h.pipefd0 ▸ hne')]
  exact h.conns fd (h'.events.subset hm) hne hne'

theorem Current.frame (h : Current l) (hb : Behind l l') (hreach : Reach Init Legal step l'.server)
    (hnone : ∀ fd, fd = l.listenfd ∨ fd = l.pipefd0 → l'.server.conns fd = none) : Current l' := by
  refine ⟨hreach, ?_, ?_, ?_, h.nodup.sublist hb.events, ?_⟩
  · rw [hb.listenfd, hb.pipefd0]
    exact h.fds
  · rw [hb.listenfd]
    exact hnone _ (.inl rfl)
  · rw [hb.pipefd0]
    exact hnone _ (.inr rfl)
  · rw [hb.listenfd, hb.pipefd0]
    intro fd hm hne hne'
    rw [hb.conns fd hm hne hne']
    exact h.isOpen fd (hb.events.subset hm) hne hne'

/-- What does not touch the server keeps all of it. -/
theorem Current.aside (h : Current l) (hs : l'.server = l.server) (hl : l'.listenfd = l.listenfd)
    (hp : l'.pipefd0 = l.pipefd0) (hsub : l'.pc.events.Sublist l.pc.events) :
    Current l' ∧ ((∀ ready, i ≠ .epollWait ready) → Behind l l') := by
  have hb : Behind l l' := ⟨hl, hp, hsub, fun fd _ _ _ => by rw [hs]⟩
  refine ⟨h.frame hb (hs ▸ h.reach) ?_, fun _ => hb⟩
  rw [hs]
  rintro fd (rfl | rfl)
  · exact h.listenfd
  · exact h.pipefd0

/-- `epoll_wait` starts with new events; all that follows goes through them. -/
theorem Current.turned (h : Current l) (hok : LoopLegal l i) (ht : Turned l i l') :
    Current l' ∧ ((∀ ready, i ≠ .epollWait ready) → Behind l l') := by
  obtain ⟨xs, hx⟩ := (tidy_reach h.reach).1
  have hnd := h.nodup
  have hopen := h.isOpen
  cases ht with
  | connect | alarm _ | kill | handler _ _ _ =>
    exact h.aside rfl rfl rfl (.refl _)
  | epollWait ready hpc =>
    obtain ⟨backlog, signals, hfold, -⟩ := foldl_report ready l
    refine ⟨?_, fun hno => absurd rfl (hno ready)⟩
    rw [hfold]
    refine ⟨h.reach, h.fds, h.listenfd, h.pipefd0, hok.1, fun fd hm hne hne' => ?_⟩
    rcases hok.2 fd hm with ⟨he, -⟩ | ⟨he, -⟩ | ⟨-, -, ho⟩
    · exact absurd he hne
    · exact absurd he hne'
    · exact ho
  | accept connfd addr now rest server hpc hs =>
    obtain ⟨hne, hne', hlegal⟩ := hok
    obtain ⟨hin, _, -, hserver⟩ := accept_cases hs
    have hconns : server.conns = Function.update l.server.conns connfd (some ⟨l.server.accepted, now⟩) := by
      rw [hserver]
    have hb : Behind l { l with server := server, backlog := l.backlog.taken 1, pc := .batch rest } := by
      refine ⟨rfl, rfl, by simp [hpc, Pc.events], fun fd hm hl hp => ?_⟩
      have hfd : fd ≠ connfd := by
        rintro rfl
        exact hopen fd (by rw [hpc]; exact List.mem_cons_of_mem _ hm) hl hp (hlegal.fresh hin)
      rw [hconns]
      exact Function.update_of_ne hfd _ _
    refine ⟨h.frame hb (h.reach.next (e := .accept connfd addr now) hlegal hs) ?_, fun _ => hb⟩
    rw [hconns]
    rintro fd (rfl | rfl)
    · rw [Function.update_of_ne hne.symm]
      exact h.listenfd
    · rw [Function.update_of_ne hne'.symm]
      exact h.pipefd0
  | recvSignals rest hpc =>
    refine h.aside rfl rfl rfl ?_
    simp [hpc, Pc.events, Loop.recvSignals]
  | recv ret now fd rest server hpc hne hne' hs =>
    have hfd : l.server.conns fd ≠ none := hopen fd (by simp [hpc, Pc.events]) hne hne'
    have hlegal : Legal l.server (.recv fd ret now) := ⟨hfd, hok⟩
    have hconns : ∀ fd' ≠ fd, server.conns fd' = l.server.conns fd' :=
      fun fd' => hx.recv_conns hfd hs
    rw [hpc] at hnd
    have hb : Behind l { l with server := server, pc := .batch rest } := by
      refine ⟨rfl, rfl, by simp [hpc, Pc.events], fun fd' hm _ _ => hconns fd' ?_⟩
      rintro rfl
      exact (List.nodup_cons.mp hnd).1 hm
    refine ⟨h.frame hb (h.reach.next (e := .recv fd ret now) hlegal hs) ?_, fun _ => hb⟩
    rintro fd' (rfl | rfl)
    · rw [hconns _ hne.symm]
      exact h.listenfd
    · rw [hconns _ hne'.symm]
      exact h.pipefd0
  | timer now server hpc htimeout hs =>
    have hb : Behind l { l with
        server := server
        alarm := true
        timeout := false
        pc := if l.stopServer then .done else .wait } := by
      refine ⟨rfl, rfl, ?_, fun fd hm => ?_⟩
      · cases l.stopServer <;> simp [Pc.events]
      · revert hm
        cases l.stopServer <;> simp [Pc.events]
    refine ⟨h.frame hb (h.reach.next (e := .timerHandler now) hok hs) ?_, fun _ => hb⟩
    rintro fd (rfl | rfl)
    · exact hx.timerHandler_none hs h.listenfd
    · exact hx.timerHandler_none hs h.pipefd0
  | again now hpc htimeout =>
    refine h.aside rfl rfl rfl ?_
    cases l.stopServer <;> simp [Pc.events]

theorem current_reach (h : Reach LoopInit LoopLegal turn l) : Current l :=
  h.invariant (I := Current) (fun _ hi => current_init hi)
    fun _ _ _ hi hok hstep => (hi.turned hok (turned hstep)).1

/-- From one `epoll_wait` to the next: the branches run as those of the server, and every
event still to handle is for the connection it was reported for, which is still open. -/
theorem events_current {es : List Input} (h : Reach LoopInit LoopLegal turn l)
    (hrun : Exec (fun l i => LoopLegal l i ∧ ∀ ready, i ≠ .epollWait ready) turn l es l') :
    Reach Init Legal step l'.server ∧ ∀ fd ∈ l'.pc.events, fd ≠ l'.listenfd → fd ≠ l'.pipefd0 →
      ∃ c, l.server.conns fd = some c ∧ l'.server.conns fd = some c := by
  obtain ⟨hc, hb⟩ := hrun.invariant (I := fun m => Current m ∧ Behind l m)
    (fun _ _ _ hi hok hstep => by
      obtain ⟨hc, hb⟩ := hi.1.turned hok.1 (turned hstep)
      exact ⟨hc, hi.2.trans (hb hok.2)⟩)
    ⟨current_reach h, behind_refl l⟩
  refine ⟨hc.reach, fun fd hm hne hne' => ?_⟩
  obtain ⟨c, ho⟩ := Option.ne_none_iff_exists'.mp (hc.isOpen fd hm hne hne')
  refine ⟨c, ?_, ho⟩
  rw [← hb.conns fd hm (hb.listenfd ▸ hne) (hb.pipefd0 ▸ hne'), ho]

/-- In front of the loop, with nothing connected. -/
def loopStart : Loop where
  server := start
  listenfd := 3
  pipefd0 := 4
  pc := .wait
  stopServer := false
  timeout := false
  alarm := true
  caught _ := false
  signals := .empty
  backlog := .empty

theorem loopInit_start : LoopInit loopStart := by
  simp [LoopInit, loopStart, init_start]

/-- A new client is accepted in front of an event of an old one. -/
theorem events_current_two : ∃ l l' : Loop, l'.pc.events = [5] ∧
    ∃ c, l.server.conns 5 = some c ∧ l'.server.conns 5 = some c := by
  let l := (play LoopLegal turn loopStart
    [.connect, .epollWait [3], .accept 5 0 0, .endBatch 1, .connect, .epollWait [3, 5]]).get (by decide)
  let l' := (turn l (.accept 6 1 2)).get (by decide)
  have hrun : Exec (fun l i => LoopLegal l i ∧ ∀ ready, i ≠ .epollWait ready) turn l [.accept 6 1 2] l' :=
    .cons ⟨by decide, by simp⟩ (Option.some_get _).symm (.nil _)
  have h := events_current (reach_of_play loopInit_start (Option.some_get _).symm) hrun
  exact ⟨l, l', by decide, h.2 5 (by decide) (by decide) (by decide)⟩

end LinuxServer.IdleServer
