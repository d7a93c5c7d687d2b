import LinuxServer.IdleLoop

/-!
# The signals of `11-3_close_nonactive_connection.cpp`

`recv` takes at most 1024 signals from `pipefd`, which is edge triggered, and only one
`SIGALRM` at a time keeps the timers going.  Neither goes wrong: a `SIGALRM` is always on
its way, and all signals that are left behind are `SIGTERM`s after the first.
-/

namespace LinuxServer.IdleServer
open TimerList

variable {l l' : Loop} {i : Input}

/-- The places at which `SIGALRM` can be on its way to `timer_handler`. -/
def alarms (l : Loop) : ℕ :=
  l.alarm.toNat + (l.caught .alrm).toNat + l.signals.queue.count .alrm + l.timeout.toNat

/-- The handler has sent `SIGTERM`. -/
def Told (l : Loop) : Prop := l.stopServer = true ∨ .term ∈ l.signals.queue

/-- What the loop keeps about its signals. -/
structure Signalled (l : Loop) : Prop where
  fds : l.listenfd ≠ l.pipefd0
  once : alarms l ≤ 1
  alarms : alarms l = 1 ∨ Told l
  settled : l.stopServer = true ∨ l.signals.Settled ∨ l.pipefd0 ∈ l.pc.events
  wait : l.pc = .wait → l.stopServer = false ∧ l.timeout = false
  done : l.pc = .done → l.stopServer = true

theorem signalled_init (h : LoopInit l) : Signalled l := by
  obtain ⟨-, hfds, hpc, hstop, htimeout, halarm, hcaught, hsignals, -⟩ := h
  have hone : IdleServer.alarms l = 1 := by
    simp [IdleServer.alarms, halarm, hcaught, hsignals, htimeout, Port.empty]
  exact ⟨hfds, hone.le, .inl hone, .inr (.inl (hsignals ▸ Port.settled_empty)),
    fun _ => ⟨hstop, htimeout⟩, fun h => by simp [hpc] at h⟩

/-- With one `SIGALRM` among them at most, two signals are one `SIGTERM` at least. -/
theorem term_mem {signals : List Signal} (h : signals.count .alrm < signals.length) : .term ∈ signals := by
  by_contra hno
  have hall : ∀ sig ∈ signals, Signal.alrm = sig := by
    intro sig hs
    cases sig with
    | alrm => rfl
    | term => exact absurd hs hno
  exact h.ne (List.count_eq_length.mpr hall)

/-- What leaves `pipefd` and `stop_server` alone. -/
theorem Signalled.frame (h : Signalled l) (hl : l'.listenfd = l.listenfd) (hp : l'.pipefd0 = l.pipefd0)
    (halarms : IdleServer.alarms l' = IdleServer.alarms l) (hsignals : l'.signals = l.signals)
    (hstop : l'.stopServer = l.stopServer) (htimeout : l'.timeout = l.timeout)
    (hevents : l.pipefd0 ∈ l.pc.events → l.pipefd0 ∈ l'.pc.events)
    (hpc : l'.pc = l.pc ∨ ∃ rest, l'.pc = .batch rest) : Signalled l' := by
  refine ⟨by rw [hl, hp]; exact h.fds, by rw [halarms]; exact h.once, ?_, ?_, fun hw => ?_, fun hd => ?_⟩
  · rw [halarms, Told, hstop, hsignals]
    exact h.alarms
  · rw [hstop, hsignals, hp]
    exact h.settled.imp_right (Or.imp_right hevents)
  · rw [hstop, htimeout]
    rcases hpc with he | ⟨rest, he⟩
    · exact h.wait (he ▸ hw)
    · cases he.symm.trans hw
  · rw [hstop]
    rcases hpc with he | ⟨rest, he⟩
    · exact h.done (he ▸ hd)
    · cases he.symm.trans hd

theorem Signalled.handler {sig : Signal} {sent : Bool} (h : Signalled l)
    (hok : sent = true ∨ 1 < l.signals.queue.length) (hc : l.caught sig = true) :
    Signalled { l with
      caught := Function.update l.caught sig false
      signals := if sent then l.signals.arrive [sig] else l.signals } := by
  have honce := h.once
  have halarms := h.alarms
  simp only [IdleServer.alarms] at honce halarms
  cases sent with
  | true =>
    refine ⟨h.fds, ?_, ?_, .inr (.inl (Port.settled_arrive _ _)), h.wait, h.done⟩
    · cases sig <;> simp [IdleServer.alarms, Port.arrive, hc] at honce ⊢ <;> omega
    · refine halarms.imp (fun h1 => ?_) (Or.imp_right fun hm => ?_)
      · cases sig <;> simp [IdleServer.alarms, Port.arrive, hc] at h1 ⊢ <;> omega
      · exact List.mem_append_left _ hm
  | false =>
    have hroom : 1 < l.signals.queue.length := by simpa using hok
    refine ⟨h.fds, ?_, ?_, h.settled, h.wait, h.done⟩
    · cases sig <;> simp [IdleServer.alarms, hc] at honce ⊢ <;> omega
    · -- a full buffer holds a `SIGTERM` already
      have hterm : Signal.term ∈ l.signals.queue := term_mem (by omega)
      exact .inr (.inr hterm)

theorem Signalled.recvSignals (h : Signalled l) (rest : List ℤ) : Signalled (l.recvSignals rest) := by
  have honce := h.once
  have htake : (l.signals.queue.take 1024).count .alrm + (l.signals.queue.drop 1024).count .alrm =
      l.signals.queue.count .alrm := by
    rw [← List.count_append, List.take_append_drop]
  have hsame : IdleServer.alarms (l.recvSignals rest) = IdleServer.alarms l := by
    simp only [IdleServer.alarms] at honce
    simp only [IdleServer.alarms, Loop.recvSignals, Port.taken]
    by_cases hm : Signal.alrm ∈ l.signals.queue.take 1024
    · have hone : 0 < (l.signals.queue.take 1024).count .alrm := List.count_pos_iff.mpr hm
      cases ht : l.timeout <;> simp [ht, hm] at honce ⊢ <;> omega
    · have hzero : (l.signals.queue.take 1024).count .alrm = 0 := List.count_eq_zero.mpr hm
      cases ht : l.timeout <;> simp [hm] <;> omega
  refine ⟨h.fds, hsame ▸ h.once, ?_, ?_, fun hw => ?_, fun hd => ?_⟩
  · rw [hsame]
    refine h.alarms.imp_right fun htold => ?_
    rcases htold with hstop | hm
    · exact .inl (by simp [Loop.recvSignals, hstop])
    · rw [← List.take_append_drop 1024 l.signals.queue, List.mem_append] at hm
      rcases hm with hm | hm
      · exact .inl (by simp [Loop.recvSignals, hm])
      · exact .inr hm
  · by_cases hlen : l.signals.queue.length ≤ 1024
    · exact .inr (.inl (Port.Fits.settled (.inl hlen)))
    · -- what is left behind came with 1023 `SIGTERM`s at least
      have hterm : Signal.term ∈ l.signals.queue.take 1024 := by
        apply term_mem
        rw [List.length_take]
        simp only [IdleServer.alarms] at honce
        omega
      exact .inl (by simp [Loop.recvSignals, hterm])
  · cases hw
  · cases hd

theorem Signalled.turned (h : Signalled l) (hok : LoopLegal l i) (ht : Turned l i l') : Signalled l' := by
  have honce := h.once
  simp only [IdleServer.alarms] at honce
  cases ht with
  | connect => exact h.frame rfl rfl rfl rfl rfl rfl id (.inl rfl)
  | alarm ha =>
    refine h.frame rfl rfl ?_ rfl rfl rfl id (.inl rfl)
    have hc : l.caught .alrm = false := by
      cases hc : l.caught .alrm
      · rfl
      · simp only [ha, hc, Bool.toNat_true] at honce
        omega
    simp [IdleServer.alarms, ha, hc]
  | kill =>
    refine h.frame rfl rfl ?_ rfl rfl rfl id (.inl rfl)
    simp [IdleServer.alarms]
  | handler sig sent hc => exact h.handler hok hc
  | epollWait ready hpc =>
    obtain ⟨backlog, signals, hfold, hqueue, hreport, hkeep⟩ := foldl_report ready l
    obtain ⟨hstop, htimeout⟩ := h.wait hpc
    have hsettled : l.signals.Settled := by simpa [hstop, hpc, Pc.events] using h.settled
    rw [hfold]
    refine ⟨h.fds, ?_, ?_, ?_, fun hw => ?_, fun hd => ?_⟩
    · simpa [IdleServer.alarms, hqueue] using h.once
    · simpa [IdleServer.alarms, Told, hqueue] using h.alarms
    · by_cases hm : l.pipefd0 ∈ ready
      · exact .inr (.inr hm)
      · refine .inr (.inl (hsettled.imp (fun hq => hqueue.trans hq) fun he => ?_))
        exact (hkeep hm).trans he
    · cases hw
    · cases hd
  | accept connfd addr now rest server hpc hs =>
    refine h.frame rfl rfl rfl rfl rfl rfl (fun hm => ?_) (.inr ⟨rest, rfl⟩)
    simpa [hpc, Pc.events, h.fds.symm] using hm
  | recvSignals rest hpc => exact h.recvSignals rest
  | recv ret now fd rest server hpc hne hne' hs =>
    refine h.frame rfl rfl rfl rfl rfl rfl (fun hm => ?_) (.inr ⟨rest, rfl⟩)
    simpa [hpc, Pc.events, hne'.symm] using hm
  | timer now server hpc htimeout hs =>
    have hsettled : l.stopServer = true ∨ l.signals.Settled := by simpa [hpc, Pc.events] using h.settled
    have hsame : IdleServer.alarms { l with
        server := server
        alarm := true
        timeout := false
        pc := if l.stopServer then .done else .wait } = IdleServer.alarms l := by
      have halarm : l.alarm = false := by
        cases ha : l.alarm
        · rfl
        · simp only [ha, htimeout, Bool.toNat_true] at honce
          omega
      simp [IdleServer.alarms, halarm, htimeout]
      omega
    refine ⟨h.fds, hsame ▸ h.once, hsame ▸ h.alarms, ?_, ?_, ?_⟩
    · exact hsettled.imp_right .inl
    · cases hstop : l.stopServer <;> simp
    · cases hstop : l.stopServer <;> simp
  | again now hpc htimeout =>
    have hsettled : l.stopServer = true ∨ l.signals.Settled := by simpa [hpc, Pc.events] using h.settled
    refine ⟨h.fds, h.once, h.alarms, hsettled.imp_right .inl, ?_, ?_⟩
    · cases hstop : l.stopServer <;> simp [htimeout]
    · cases hstop : l.stopServer <;> simp

theorem signalled_reach (h : Reach LoopInit LoopLegal turn l) : Signalled l :=
  h.invariant (I := Signalled) (fun _ hi => signalled_init hi)
    fun _ _ _ hi hok hstep => hi.turned hok (turned hstep)

/-- The timers never stop: whenever the loop waits with no `SIGALRM` caught and no event of
`pipefd` to come, nothing is left in `pipefd` and the alarm is set. -/
theorem wait_alarm (h : Reach LoopInit LoopLegal turn l) (hpc : l.pc = .wait)
    (hcaught : l.caught .alrm = false) (hedge : l.signals.edge = false) :
    l.signals.queue = [] ∧ l.alarm = true := by
  have hl := signalled_reach h
  obtain ⟨hstop, htimeout⟩ := hl.wait hpc
  have hqueue : l.signals.queue = [] := by
    simpa [hstop, hpc, Pc.events, Port.Settled, hedge] using hl.settled
  refine ⟨hqueue, ?_⟩
  rcases hl.alarms with hone | htold
  · simpa [IdleServer.alarms, hcaught, hqueue, htimeout] using hone
  · simp [Told, hstop, hqueue] at htold

/-- The alarm has gone off and been set again. -/
theorem wait_alarm_again : ∃ l : Loop, l.pc = .wait ∧ l.server.clock = 5 ∧
    l.signals.queue = [] ∧ l.alarm = true := by
  let l := (play LoopLegal turn loopStart
    [.alarm, .handler .alrm true, .epollWait [4], .recvSignals, .endBatch 5]).get (by decide)
  have h : Reach LoopInit LoopLegal turn l := reach_of_play loopInit_start (Option.some_get _).symm
  exact ⟨l, by decide, by decide, wait_alarm h (by decide) (by decide) (by decide)⟩

/-- A `SIGTERM` is on its way to `stop_server`, or there. -/
def Heard (l : Loop) : Prop := l.caught .term = true ∨ Told l

theorem Signalled.heard (h : Signalled l) (hok : LoopLegal l i) (ht : Turned l i l') :
    Heard l' ↔ Heard l ∨ i = .kill := by
  have honce := h.once
  simp only [IdleServer.alarms] at honce
  cases ht with
  | connect | again | timer | accept | recv => simp [Heard, Told]
  | alarm ha => simp [Heard, Told]
  | kill => simp [Heard]
  | handler sig sent hc =>
    cases sent with
    | true => cases sig <;> simp [Heard, Told, Port.arrive, hc]
    | false =>
      have hroom : 1 < l.signals.queue.length := by simpa [LoopLegal] using hok
      have hterm : Signal.term ∈ l.signals.queue := term_mem (by omega)
      simp [Heard, Told, hterm]
  | epollWait ready hpc =>
    obtain ⟨backlog, signals, hfold, hqueue, -⟩ := foldl_report ready l
    rw [hfold]
    simp [Heard, Told, hqueue]
  | recvSignals rest hpc =>
    have hsplit : Signal.term ∈ l.signals.queue ↔
        Signal.term ∈ l.signals.queue.take 1024 ∨ Signal.term ∈ l.signals.queue.drop 1024 := by
      rw [← List.mem_append, List.take_append_drop]
    simp [Heard, Told, Loop.recvSignals, Port.taken, hsplit, or_assoc]

/-- The loop ends after a `SIGTERM` only; and after the first one it never waits without an
event of `pipefd` or a signal for its handler to come. -/
theorem stops_when_killed {es : List Input} (h0 : LoopInit l) (hrun : Exec LoopLegal turn l es l') :
    (l'.pc = .done → .kill ∈ es) ∧
      (.kill ∈ es → l'.pc = .wait → l'.caught .term = true ∨ l'.signals.edge = true) := by
  obtain ⟨hl, hheard⟩ := hrun.history (I := fun es l => Signalled l ∧ (Heard l ↔ .kill ∈ es))
    (fun es _ i _ hi hok hstep => by
      have ht := turned hstep
      refine ⟨hi.1.turned hok ht, ?_⟩
      rw [hi.1.heard hok ht, hi.2, List.mem_append, List.mem_singleton]
      exact or_congr_right eq_comm)
    ⟨signalled_init h0, by
      obtain ⟨-, -, -, hstop, -, -, hcaught, hsignals, -⟩ := h0
      simp [Heard, Told, hstop, hcaught, hsignals, Port.empty]⟩
  refine ⟨fun hpc => hheard.mp (.inr (.inl (hl.done hpc))), fun hkill hpc => ?_⟩
  obtain ⟨hstop, -⟩ := hl.wait hpc
  refine (hheard.mpr hkill).imp_right fun htold => ?_
  have hterm : Signal.term ∈ l'.signals.queue := by simpa [Told, hstop] using htold
  have hsettled : l'.signals.Settled := by simpa [hstop, hpc, Pc.events] using hl.settled
  exact hsettled.resolve_left (List.ne_nil_of_mem hterm)

/-- `SIGTERM` comes while an event of the listening socket is handled. -/
theorem stops_when_killed_once : ∃ l : Loop, l.signals.edge = true ∧ l.pc = .wait := by
  let es : List Input := [.connect, .epollWait [3], .kill, .handler .term true, .accept 5 0 0, .endBatch 1]
  let l := (play LoopLegal turn loopStart es).get (by decide)
  have hrun : Exec LoopLegal turn loopStart es l := exec_of_play (Option.some_get _).symm
  have h := stops_when_killed loopInit_start hrun
  have hcaught : l.caught .term = false := by decide
  have hpc : l.pc = .wait := by decide
  exact ⟨l, by simpa [hcaught] using h.2 (by decide) hpc, hpc⟩

end LinuxServer.IdleServer
