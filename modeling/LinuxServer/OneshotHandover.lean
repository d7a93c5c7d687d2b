import LinuxServer.Oneshot
import LinuxServer.Runs

/-!
# One worker for a socket

`EPOLLONESHOT` lets a socket be reported once until it is re-armed.  It is then served by
one worker if the thread that is created for it reads its argument before the main loop
overwrites that for the next one.
-/

namespace LinuxServer.Oneshot

variable {s s' : Server} {e : Event} {fd : ℤ} {k l : ℕ} {w w' : Worker}

/-- The main loop does not handle the event of a client socket while a thread has still to
read its argument, and every such event has `EPOLLIN` set. -/
def Orderly (s : Server) : Event → Prop
  | .handle _ => ∀ e ∈ s.events.bind List.head?, e.1 ≠ s.listenfd →
      e.2 = true ∧ ∀ k < s.created, (s.thread k).worker ≠ none
  | _ => True

instance (s : Server) : (e : Event) → Decidable (Orderly s e)
  | .handle _ => inferInstanceAs (Decidable (∀ e ∈ _, _))
  | .epollWait _ => isTrue trivial
  | .workerStart _ => isTrue trivial
  | .workerRecv _ _ => isTrue trivial

/-- A socket whose event was reported and is still to be handled. -/
def Reported (s : Server) (fd : ℤ) : Prop := ∃ events readable, s.events = some events ∧ (fd, readable) ∈ events

/-- Every worker has the socket whose event it was created for, no two are in their loops for
the same socket, and a client socket that is not armed is about to be handled, or has a thread
that has not come to its end. -/
structure Served (s : Server) : Prop where
  own : ∀ k < s.created, ∀ w, (s.thread k).worker = some w → w.sockfd = (s.thread k).origin
  apart : ∀ k < s.created, ∀ l < s.created, ∀ w w', (s.thread k).worker = some w →
    (s.thread l).worker = some w' → w.running = true → w'.running = true → w.sockfd = w'.sockfd → k = l
  tended : ∀ fd, s.armed fd = some false →
    Reported s fd ∨ ∃ k < s.created, (s.thread k).origin = fd ∧ (s.thread k).active = true
  ends : ∀ k < s.created, ∀ w w' r s', (s.thread k).worker = some w → w.running = true →
    Legal s (.workerRecv k r) → step s (.workerRecv k r) = some s' → (s'.thread k).worker = some w' →
    w'.running = false → s'.armed w.sockfd ≠ some false

/-- What keeps it so: the threads that have not ended and the events still to be handled all
have sockets of their own, which are open and not armed, and a thread that has not started
will find its own socket. -/
structure Handover (s : Server) : Prop where
  own : ∀ k < s.created, ∀ w, (s.thread k).worker = some w → w.sockfd = (s.thread k).origin
  pending : ∀ k < s.created, (s.thread k).worker = none → s.fdsForNewWorker = (s.thread k).origin
  distinct : ∀ k < s.created, ∀ l < s.created, (s.thread k).active = true → (s.thread l).active = true →
    (s.thread k).origin = (s.thread l).origin → k = l
  disarmed : ∀ k < s.created, (s.thread k).active = true → s.armed (s.thread k).origin = some false
  nodup : ∀ events, s.events = some events → (events.map Prod.fst).Nodup
  reported : ∀ fd, Reported s fd → fd ≠ s.listenfd → s.armed fd = some false ∧
    ∀ k < s.created, (s.thread k).active = true → (s.thread k).origin ≠ fd
  tended : ∀ fd, s.armed fd = some false →
    Reported s fd ∨ ∃ k < s.created, (s.thread k).origin = fd ∧ (s.thread k).active = true
  listen : s.armed s.listenfd = none

theorem looping_active {t : Thread} (hw : t.worker = some w) (hrun : w.running = true) :
    t.active = true := by
  simp [Thread.active, hw, hrun]

/-! ## The steps -/

/-- The sockets that are reported are disarmed, the others are as before. -/
theorem foldl_report (ready : List (ℤ × Bool)) (s : Server) : ready.foldl Server.report s = { s with
    armed := fun fd =>
      if fd ∈ ready.map Prod.fst then (s.armed fd).map fun _ => false else s.armed fd } := by
  induction ready generalizing s with
  | nil => simp
  | cons e ready ih =>
    rw [List.foldl_cons, ih]
    unfold Server.report
    congr 1
    funext fd
    simp only [List.map_cons, List.mem_cons]
    by_cases hfd : fd = e.1
    · subst hfd
      simp only [Function.update_self, true_or, if_true, Option.map_map]
      split <;> rfl
    · simp [hfd]

theorem epollWait_eq {ready : List (ℤ × Bool)} (h : step s (.epollWait ready) = some s') :
    s.events = none ∧ s' = { s with
      events := some ready
      armed := fun fd =>
        if fd ∈ ready.map Prod.fst then (s.armed fd).map fun _ => false else s.armed fd } := by
  simp only [step, Server.epollWait] at h
  split at h
  next hev =>
    rw [foldl_report] at h
    exact ⟨hev, (Option.some.inj h).symm⟩
  next => cases h

/-- What a round of the main loop does. -/
inductive HandleMove (s : Server) : Option ℤ → Server → Prop
  | done (connfd : Option ℤ) : s.events = some [] → HandleMove s connfd { s with events := none }
  | refused (readable : Bool) (rest : List (ℤ × Bool)) :
      s.events = some ((s.listenfd, readable) :: rest) → HandleMove s none { s with events := some rest }
  | accepted (connfd : ℤ) (readable : Bool) (rest : List (ℤ × Bool)) :
      s.events = some ((s.listenfd, readable) :: rest) →
      HandleMove s (some connfd) { s with
        events := some rest
        armed := Function.update s.armed connfd (some true) }
  | dispatched (connfd : Option ℤ) (fd : ℤ) (rest : List (ℤ × Bool)) :
      s.events = some ((fd, true) :: rest) → fd ≠ s.listenfd →
      HandleMove s connfd (({ s with events := some rest } : Server).dispatch fd)
  | other (connfd : Option ℤ) (fd : ℤ) (rest : List (ℤ × Bool)) :
      s.events = some ((fd, false) :: rest) → fd ≠ s.listenfd →
      HandleMove s connfd { s with events := some rest }

theorem handle_move {connfd : Option ℤ} (h : step s (.handle connfd) = some s') :
    HandleMove s connfd s' := by
  simp only [step, Server.handle] at h
  match hev : s.events with
  | none => simp [hev] at h
  | some [] =>
    rw [hev] at h
    obtain rfl := Option.some.inj h
    exact .done connfd hev
  | some ((fd, readable) :: rest) =>
    rw [hev] at h
    by_cases hfd : fd = s.listenfd
    · subst hfd
      simp only [if_true] at h
      cases connfd with
      | none =>
        obtain rfl := Option.some.inj h
        exact .refused readable rest hev
      | some connfd =>
        obtain rfl := Option.some.inj h
        exact .accepted connfd readable rest hev
    · simp only [if_neg hfd] at h
      cases readable with
      | true =>
        obtain rfl := Option.some.inj h
        exact .dispatched connfd fd rest hev hfd
      | false =>
        obtain rfl := Option.some.inj h
        exact .other connfd fd rest hev hfd

theorem workerStart_eq (h : step s (.workerStart k) = some s') :
    (s.thread k).worker = none ∧ s' = { s with
      thread := Function.update s.thread k
        { s.thread k with worker := some (.start s.fdsForNewWorker) } } := by
  simp only [step, Server.workerStart] at h
  split at h
  next hw => exact ⟨hw, (Option.some.inj h).symm⟩
  next => cases h

theorem workerStart_of_none (hw : (s.thread k).worker = none) : step s (.workerStart k) = some { s with
    thread := Function.update s.thread k
      { s.thread k with worker := some (.start s.fdsForNewWorker) } } := by
  simp only [step, Server.workerStart, hw]

/-- What a round of a worker does: it stays in its loop and leaves the sockets as they are, or
ends and has closed or re-armed its own. -/
theorem workerRecv_eq {r : RecvResult} (h : step s (.workerRecv k r) = some s') :
    ∃ w w', (s.thread k).worker = some w ∧ w.running = true ∧ w'.sockfd = w.sockfd ∧
      ∃ armed, s' = { s with
        thread := Function.update s.thread k { s.thread k with worker := some w' }
        armed := armed } ∧
      (w'.running = true ∧ armed = s.armed ∨
        w'.running = false ∧ armed w.sockfd ≠ some false ∧ ∀ fd, fd ≠ w.sockfd → armed fd = s.armed fd) := by
  simp only [step, Server.workerRecv] at h
  split at h
  next => cases h
  next w hw =>
    split at h
    next hrun =>
      refine ⟨w, ?_⟩
      cases r with
      | data bytes =>
        simp only [Worker.turn, Option.bind_eq_bind, Option.bind_eq_some_iff] at h
        obtain ⟨⟨w', actions⟩, ⟨c, -, hc⟩, hs⟩ := h
        cases hc
        obtain rfl := Option.some.inj hs
        exact ⟨{ w with buf := bytes ++ w.buf.drop bytes.length }, hw, hrun, rfl, s.armed, rfl,
          .inl ⟨hrun, rfl⟩⟩
      | error =>
        obtain rfl := Option.some.inj h
        exact ⟨w, hw, hrun, rfl, s.armed, rfl, .inl ⟨hrun, rfl⟩⟩
      | eof =>
        obtain rfl := Option.some.inj h
        refine ⟨{ w with running := false }, hw, hrun, rfl, Function.update s.armed w.sockfd none, rfl,
          .inr ⟨rfl, ?_, fun fd hfd => Function.update_of_ne hfd _ _⟩⟩
        simp
      | again =>
        obtain rfl := Option.some.inj h
        refine ⟨{ w with running := false }, hw, hrun, rfl,
          Function.update s.armed w.sockfd ((s.armed w.sockfd).map fun _ => true), rfl,
          .inr ⟨rfl, ?_, fun fd hfd => Function.update_of_ne hfd _ _⟩⟩
        simp
    next => cases h

/-! ## The invariant -/

/-- The listening socket has no thread. -/
theorem Handover.origin_ne (h : Handover s) (hk : k < s.created) (ha : (s.thread k).active = true) :
    (s.thread k).origin ≠ s.listenfd := by
  intro heq
  have hd := h.disarmed k hk ha
  rw [heq, h.listen] at hd
  cases hd

/-- The next event's socket is not reported again behind it. -/
theorem Handover.nodup_rest {readable : Bool} {rest : List (ℤ × Bool)} (h : Handover s)
    (hev : s.events = some ((fd, readable) :: rest)) :
    fd ∉ rest.map Prod.fst ∧ (rest.map Prod.fst).Nodup := by
  have hnd := h.nodup _ hev
  rwa [List.map_cons, List.nodup_cons] at hnd

/-- A thread's socket stays what it was when the thread goes on. -/
theorem update_origin (s : Server) (k : ℕ) (w : Worker) (l : ℕ) :
    (Function.update s.thread k { s.thread k with worker := some w } l).origin = (s.thread l).origin := by
  by_cases hl : l = k
  · subst hl
    rw [Function.update_self]
  · rw [Function.update_of_ne hl]

/-- No thread that has ended goes on again. -/
theorem active_of_update (ha : (s.thread k).active = true)
    (hl : (Function.update s.thread k { s.thread k with worker := some w } l).active = true) :
    (s.thread l).active = true := by
  by_cases hlk : l = k
  · subst hlk
    exact ha
  · rwa [Function.update_of_ne hlk] at hl

theorem Handover.epollWait {ready : List (ℤ × Bool)} (h : Handover s) (hok : Legal s (.epollWait ready))
    (hs : step s (.epollWait ready) = some s') : Handover s' := by
  obtain ⟨hnd, hready⟩ := hok
  obtain ⟨hev, rfl⟩ := epollWait_eq hs
  -- a reported client socket was armed, and is not the socket of a thread that has not ended
  have hclient : ∀ fd ∈ ready.map Prod.fst, fd ≠ s.listenfd → s.armed fd = some true := by
    intro fd hfd hne
    obtain ⟨e, he, rfl⟩ := List.mem_map.mp hfd
    exact (hready e he).resolve_left hne
  have hnot : ∀ k < s.created, (s.thread k).active = true → (s.thread k).origin ∉ ready.map Prod.fst := by
    intro k hk ha hmem
    have hd := h.disarmed k hk ha
    rw [hclient _ hmem (h.origin_ne hk ha)] at hd
    cases hd
  have hrep : ∀ fd, fd ∈ ready.map Prod.fst ↔ ∃ events readable, some ready = some events ∧
      (fd, readable) ∈ events := by
    intro fd
    rw [List.mem_map]
    constructor
    · rintro ⟨⟨fd', readable⟩, he, rfl⟩
      exact ⟨ready, readable, rfl, he⟩
    · rintro ⟨events, readable, heq, he⟩
      cases heq
      exact ⟨_, he, rfl⟩
  refine ⟨h.own, h.pending, h.distinct, ?_, ?_, ?_, ?_, ?_⟩
  · intro k hk ha
    simp only [if_neg (hnot k hk ha)]
    exact h.disarmed k hk ha
  · rintro events heq
    cases heq
    exact hnd
  · intro fd hfd hne
    have hmem : fd ∈ ready.map Prod.fst := (hrep fd).mpr hfd
    refine ⟨?_, fun k hk ha heq => hnot k hk ha (heq ▸ hmem)⟩
    simp only [if_pos hmem, hclient fd hmem hne, Option.map_some]
  · intro fd hfd
    by_cases hmem : fd ∈ ready.map Prod.fst
    · exact .inl ((hrep fd).mp hmem)
    · simp only [if_neg hmem] at hfd
      rcases h.tended fd hfd with ⟨events, readable, heq, -⟩ | hk
      · rw [hev] at heq
        cases heq
      · exact .inr hk
  · simp only [h.listen, Option.map_none, ite_self]

theorem reported_rest {fd' : ℤ} {readable : Bool} {rest : List (ℤ × Bool)}
    (hev : s.events = some ((fd, readable) :: rest)) :
    Reported s fd' ↔ fd' = fd ∨ ∃ r, (fd', r) ∈ rest := by
  constructor
  · rintro ⟨events, r, heq, hmem⟩
    rw [hev] at heq
    cases heq
    rcases List.mem_cons.mp hmem with h | h
    · cases h
      exact .inl rfl
    · exact .inr ⟨r, h⟩
  · rintro (rfl | ⟨r, hr⟩)
    · exact ⟨_, readable, hev, List.mem_cons_self⟩
    · exact ⟨_, r, hev, List.mem_cons_of_mem _ hr⟩

/-- The event of the listening socket is taken, with or without a new connection. -/
theorem Handover.next {readable : Bool} {rest : List (ℤ × Bool)} {armed : ℤ → Option Bool}
    (h : Handover s) (hev : s.events = some ((s.listenfd, readable) :: rest))
    (harmed : ∀ fd, armed fd = s.armed fd ∨ s.armed fd = none ∧ armed fd = some true ∧ fd ≠ s.listenfd) :
    Handover { s with events := some rest, armed := armed } := by
  have hkeep : ∀ fd, s.armed fd = some false → armed fd = some false := by
    intro fd hfd
    rcases harmed fd with heq | ⟨hnone, -⟩
    · rw [heq, hfd]
    · rw [hfd] at hnone
      cases hnone
  have hnd := h.nodup_rest hev
  refine ⟨h.own, h.pending, h.distinct, ?_, ?_, ?_, ?_, ?_⟩
  · intro k hk ha
    exact hkeep _ (h.disarmed k hk ha)
  · intro events heq
    cases heq
    exact hnd.2
  · rintro fd ⟨events, r, heq, hmem⟩ hne
    cases heq
    obtain ⟨h1, h2⟩ := h.reported fd ((reported_rest hev).mpr (.inr ⟨r, hmem⟩)) hne
    exact ⟨hkeep fd h1, h2⟩
  · intro fd hfd
    have hold : s.armed fd = some false := by
      rcases harmed fd with heq | ⟨-, htrue, -⟩
      · rw [← heq]
        exact hfd
      · simp only [htrue] at hfd
        cases hfd
    rcases h.tended fd hold with hrep | hk
    · rcases (reported_rest hev).mp hrep with rfl | ⟨r, hr⟩
      · rw [h.listen] at hold
        cases hold
      · exact .inl ⟨rest, r, rfl, hr⟩
    · exact .inr hk
  · rcases harmed s.listenfd with heq | ⟨-, -, hne⟩
    · exact heq.trans h.listen
    · exact absurd rfl hne

/-- A thread is created for the next event while no other has still to read its argument. -/
theorem Handover.dispatch {rest : List (ℤ × Bool)} (h : Handover s)
    (hev : s.events = some ((fd, true) :: rest)) (hfd : fd ≠ s.listenfd)
    (hread : ∀ k < s.created, (s.thread k).worker ≠ none) :
    Handover (({ s with events := some rest } : Server).dispatch fd) := by
  have hnd := h.nodup_rest hev
  obtain ⟨harm, hfree⟩ := h.reported fd ((reported_rest hev).mpr (.inl rfl)) hfd
  have hself : (({ s with events := some rest } : Server).dispatch fd).thread s.created = ⟨fd, none⟩ :=
    Function.update_self _ _ _
  have hne : ∀ k, k ≠ s.created →
      (({ s with events := some rest } : Server).dispatch fd).thread k = s.thread k :=
    fun k hk => Function.update_of_ne hk _ _
  have hlt : ∀ k < s.created + 1, k ≠ s.created → k < s.created := fun k hk hkn => by omega
  refine ⟨?_, ?_, ?_, ?_, ?_, ?_, ?_, h.listen⟩
  · intro k hk w hw
    by_cases hkn : k = s.created
    · subst hkn
      rw [hself] at hw
      cases hw
    · rw [hne k hkn] at hw ⊢
      exact h.own k (hlt k hk hkn) w hw
  · intro k hk hw
    by_cases hkn : k = s.created
    · subst hkn
      rw [hself]
      rfl
    · rw [hne k hkn] at hw
      exact absurd hw (hread k (hlt k hk hkn))
  · intro k hk l hl hak hal heq
    by_cases hkn : k = s.created <;> by_cases hln : l = s.created
    · rw [hkn, hln]
    · subst hkn
      rw [hne l hln] at hal heq
      rw [hself] at heq
      exact absurd heq.symm (hfree l (hlt l hl hln) hal)
    · subst hln
      rw [hne k hkn] at hak heq
      rw [hself] at heq
      exact absurd heq (hfree k (hlt k hk hkn) hak)
    · rw [hne k hkn] at hak heq
      rw [hne l hln] at hal heq
      exact h.distinct k (hlt k hk hkn) l (hlt l hl hln) hak hal heq
  · intro k hk ha
    by_cases hkn : k = s.created
    · subst hkn
      rw [hself]
      exact harm
    · rw [hne k hkn] at ha ⊢
      exact h.disarmed k (hlt k hk hkn) ha
  · intro events heq
    cases heq
    exact hnd.2
  · rintro fd' ⟨events, r, heq, hmem⟩ hne'
    cases heq
    obtain ⟨h1, h2⟩ := h.reported fd' ((reported_rest hev).mpr (.inr ⟨r, hmem⟩)) hne'
    refine ⟨h1, fun k hk ha heq => ?_⟩
    by_cases hkn : k = s.created
    · subst hkn
      rw [hself] at heq
      simp only at heq
      subst heq
      exact hnd.1 (List.mem_map.mpr ⟨_, hmem, rfl⟩)
    · rw [hne k hkn] at ha heq
      exact h2 k (hlt k hk hkn) ha heq
  · intro fd' hfd'
    rcases h.tended fd' hfd' with hrep | ⟨k, hk, ho, ha⟩
    · rcases (reported_rest hev).mp hrep with rfl | ⟨r, hr⟩
      · refine .inr ⟨s.created, Nat.lt_succ_self _, ?_, ?_⟩ <;> rw [hself]
        rfl
      · exact .inl ⟨rest, r, rfl, hr⟩
    · refine .inr ⟨k, Nat.lt_succ_of_lt hk, ?_⟩
      rw [hne k (by omega)]
      exact ⟨ho, ha⟩

theorem Handover.done (h : Handover s) (hev : s.events = some []) :
    Handover { s with events := none } := by
  refine ⟨h.own, h.pending, h.distinct, h.disarmed, ?_, ?_, ?_, h.listen⟩
  · intro events heq
    cases heq
  · rintro fd ⟨events, r, heq, -⟩
    cases heq
  · intro fd hfd
    rcases h.tended fd hfd with ⟨events, r, heq, hmem⟩ | hk
    · rw [hev] at heq
      cases heq
      cases hmem
    · exact .inr hk

/-- A thread goes on: the threads that have not ended are the same as before, or fewer, and
only its own socket may change. -/
theorem Handover.worker {armed : ℤ → Option Bool} (h : Handover s) (hk : k < s.created)
    (ha : (s.thread k).active = true) (hown : w.sockfd = (s.thread k).origin)
    (harmed : w.running = true ∧ armed = s.armed ∨ w.running = false ∧
      armed (s.thread k).origin ≠ some false ∧ ∀ fd, fd ≠ (s.thread k).origin → armed fd = s.armed fd) :
    Handover { s with
      thread := Function.update s.thread k { s.thread k with worker := some w }
      armed := armed } := by
  have hne : ∀ l, l ≠ k → Function.update s.thread k { s.thread k with worker := some w } l = s.thread l :=
    fun l hl => Function.update_of_ne hl _ _
  -- the sockets of the other threads and those still to be handled are not the one that changes
  have hkeep : ∀ fd, fd ≠ (s.thread k).origin → armed fd = s.armed fd := by
    intro fd hfd
    rcases harmed with ⟨-, rfl⟩ | ⟨-, -, hsame⟩
    · rfl
    · exact hsame fd hfd
  refine ⟨?_, ?_, ?_, ?_, h.nodup, ?_, ?_, (hkeep _ (h.origin_ne hk ha).symm).trans h.listen⟩
  · intro l hl v hv
    simp only [update_origin]
    by_cases hlk : l = k
    · subst hlk
      simp only [Function.update_self, Option.some.injEq] at hv
      rw [← hv]
      exact hown
    · simp only [hne l hlk] at hv
      exact h.own l hl v hv
  · intro l hl hv
    by_cases hlk : l = k
    · subst hlk
      simp at hv
    · simp only [hne l hlk] at hv ⊢
      exact h.pending l hl hv
  · intro l hl m hm hal ham heq
    simp only [update_origin] at heq
    exact h.distinct l hl m hm (active_of_update ha hal) (active_of_update ha ham) heq
  · intro l hl hal
    simp only [update_origin]
    by_cases hlk : l = k
    · subst hlk
      rcases harmed with ⟨-, rfl⟩ | ⟨hstop, -, -⟩
      · exact h.disarmed l hl ha
      · simp [Thread.active, hstop] at hal
    · have hal' := active_of_update ha hal
      rw [hkeep]
      · exact h.disarmed l hl hal'
      · exact fun heq => hlk (h.distinct l hl k hk hal' ha heq)
  · intro fd hfd hfdl
    obtain ⟨h1, h2⟩ := h.reported fd hfd hfdl
    refine ⟨?_, fun l hl hal => ?_⟩
    · exact (hkeep fd (h2 k hk ha).symm).trans h1
    · simp only [update_origin]
      exact h2 l hl (active_of_update ha hal)
  · intro fd hfd
    by_cases hfdk : fd = (s.thread k).origin
    · subst hfdk
      rcases harmed with ⟨hrun, rfl⟩ | ⟨-, hnot, -⟩
      · refine .inr ⟨k, hk, update_origin s k w k, ?_⟩
        simp [Thread.active, hrun]
      · exact absurd hfd hnot
    · simp only [hkeep fd hfdk] at hfd
      rcases h.tended fd hfd with hrep | ⟨l, hl, ho, hal⟩
      · exact .inl hrep
      · have hlk : l ≠ k := by
          rintro rfl
          exact hfdk ho.symm
        refine .inr ⟨l, hl, (update_origin s k w l).trans ho, ?_⟩
        simp only [hne l hlk]
        exact hal

theorem handover_step (h : Handover s) (hok : Legal s e) (ho : Orderly s e) (hs : step s e = some s') :
    Handover s' := by
  cases e with
  | epollWait ready => exact h.epollWait hok hs
  | handle connfd =>
    cases handle_move hs with
    | done _ hev => exact h.done hev
    | refused readable rest hev => exact h.next hev fun _ => .inl rfl
    | accepted connfd readable rest hev =>
      obtain ⟨hne, hnone⟩ := hok
      apply h.next hev
      intro fd
      by_cases hfd : fd = connfd
      · subst hfd
        exact .inr ⟨hnone, Function.update_self _ _ _, hne⟩
      · exact .inl (Function.update_of_ne hfd _ _)
    | dispatched _ fd rest hev hfd => exact h.dispatch hev hfd (ho (fd, true) (by simp [hev]) hfd).2
    | other _ fd rest hev hfd => cases (ho (fd, false) (by simp [hev]) hfd).1
  | workerStart k =>
    obtain ⟨hw, rfl⟩ := workerStart_eq hs
    have ha : (s.thread k).active = true := by simp [Thread.active, hw]
    exact h.worker hok ha (h.pending k hok hw) (.inl ⟨rfl, rfl⟩)
  | workerRecv k r =>
    obtain ⟨w, w', hw, hrun, hfd, armed, rfl, hcase⟩ := workerRecv_eq hs
    have hown := h.own k hok.1 w hw
    rw [hown] at hfd hcase
    exact h.worker hok.1 (looping_active hw hrun) hfd hcase

theorem handover_init (h : Init s) : Handover s := by
  obtain ⟨hev, hcreated, harmed⟩ := h
  have hno : ∀ k, ¬ k < s.created := fun k => by omega
  have hrep : ∀ fd, ¬ Reported s fd := by
    rintro fd ⟨events, r, heq, -⟩
    rw [hev] at heq
    cases heq
  refine ⟨fun k hk => absurd hk (hno k), fun k hk => absurd hk (hno k), fun k hk => absurd hk (hno k),
    fun k hk => absurd hk (hno k), ?_, fun fd hfd => absurd hfd (hrep fd), ?_, harmed _⟩
  · intro events heq
    rw [hev] at heq
    cases heq
  · intro fd hfd
    rw [harmed] at hfd
    cases hfd

/-- A worker ends by closing or re-arming its socket. -/
theorem worker_ends {r : RecvResult} (hw : (s.thread k).worker = some w)
    (hs : step s (.workerRecv k r) = some s') (hw' : (s'.thread k).worker = some w')
    (hstop : w'.running = false) : s'.armed w.sockfd ≠ some false := by
  obtain ⟨v, v', hv, -, -, armed, rfl, hcase⟩ := workerRecv_eq hs
  obtain rfl := Option.some.inj (hw.symm.trans hv)
  simp only [Function.update_self, Option.some.injEq] at hw'
  subst hw'
  rcases hcase with ⟨hrun, -⟩ | ⟨-, hnot, -⟩
  · rw [hrun] at hstop
    cases hstop
  · exact hnot

theorem Handover.served (h : Handover s) : Served s := by
  refine ⟨h.own, ?_, h.tended, ?_⟩
  · intro k hk l hl w w' hw hw' hrun hrun' heq
    apply h.distinct k hk l hl (looping_active hw hrun) (looping_active hw' hrun')
    rw [← h.own k hk w hw, ← h.own l hl w' hw']
    exact heq
  · intro k _ w w' r s' hw _ _ hs hw' hstop
    exact worker_ends hw hs hw' hstop

theorem handover_reach (h : Reach Init (fun s e => Legal s e ∧ Orderly s e) step s) : Handover s :=
  h.invariant (I := Handover) (fun _ => handover_init) fun _ _ _ hi hok hs =>
    handover_step hi hok.1 hok.2 hs

/-- A client event without `EPOLLIN` leaves its socket disarmed, with nobody to see to it. -/
theorem not_served_other {rest : List (ℤ × Bool)} (h : Handover s)
    (hev : s.events = some ((fd, false) :: rest)) (hfd : fd ≠ s.listenfd) :
    ¬ Served { s with events := some rest } := by
  intro hserved
  obtain ⟨harm, hfree⟩ := h.reported fd ((reported_rest hev).mpr (.inl rfl)) hfd
  have hnd := h.nodup_rest hev
  rcases hserved.tended fd harm with ⟨events, r, heq, hmem⟩ | ⟨k, hk, ho, ha⟩
  · cases heq
    exact hnd.1 (List.mem_map.mpr ⟨_, hmem, rfl⟩)
  · exact hfree k hk ha ho

/-- A thread that has still to read its argument when the next one is created finds the socket of
that one. -/
theorem not_served_overtaken {rest : List (ℤ × Bool)} (h : Handover s)
    (hev : s.events = some ((fd, true) :: rest)) (hfd : fd ≠ s.listenfd) (hk : k < s.created)
    (hw : (s.thread k).worker = none) :
    ∃ s', Legal (({ s with events := some rest } : Server).dispatch fd) (.workerStart k) ∧
      step (({ s with events := some rest } : Server).dispatch fd) (.workerStart k) = some s' ∧
      ¬ Served s' := by
  obtain ⟨-, hfree⟩ := h.reported fd ((reported_rest hev).mpr (.inl rfl)) hfd
  have ha : (s.thread k).active = true := by simp [Thread.active, hw]
  have hkn : k ≠ s.created := by omega
  have hsame : (({ s with events := some rest } : Server).dispatch fd).thread k = s.thread k :=
    Function.update_of_ne hkn _ _
  have hlegal : k < s.created + 1 := by omega
  refine ⟨_, hlegal, workerStart_of_none (hsame.symm ▸ hw), fun hserved => ?_⟩
  have hown := hserved.own k hlegal (.start fd) (by simp only [Function.update_self]; rfl)
  simp only [Function.update_self, hsame] at hown
  exact hfree k hk ha hown.symm

/-- In an orderly run every socket is served by one worker, which closes or re-arms it.  The
first step that is not orderly ends this, at once or when the thread that was overtaken
starts. -/
theorem oneshot_served (h : Reach Init (fun s e => Legal s e ∧ Orderly s e) step s) :
    Served s ∧ ∀ e s', Legal s e → ¬ Orderly s e → step s e = some s' → ¬ Served s' ∨
      ∃ k s'', Legal s' (.workerStart k) ∧ step s' (.workerStart k) = some s'' ∧ ¬ Served s'' := by
  have hh := handover_reach h
  refine ⟨hh.served, fun e s' _ hno hs => ?_⟩
  cases e with
  | epollWait | workerStart | workerRecv => exact absurd trivial hno
  | handle connfd =>
    cases handle_move hs with
    | done _ hev => exact absurd (by simp [Orderly, hev]) hno
    | refused readable rest hev => exact absurd (by simp [Orderly, hev]) hno
    | accepted connfd readable rest hev => exact absurd (by simp [Orderly, hev]) hno
    | other _ fd rest hev hfd => exact .inl (not_served_other hh hev hfd)
    | dispatched _ fd rest hev hfd =>
      right
      have hpend : ∃ k < s.created, (s.thread k).worker = none := by
        by_contra hall
        push Not at hall
        apply hno
        intro e he _
        obtain rfl : (fd, true) = e := by simpa [hev] using he
        exact ⟨rfl, hall⟩
      obtain ⟨k, hk, hw⟩ := hpend
      obtain ⟨s'', h1, h2, h3⟩ := not_served_overtaken hh hev hfd hk hw
      exact ⟨k, s'', h1, h2, h3⟩

/-- Two clients connect and become readable together. -/
def twoReadable : List Event :=
  [.epollWait [(3, true)], .handle (some 5), .handle none, .epollWait [(3, true)], .handle (some 6),
    .handle none, .epollWait [(5, true), (6, true)]]

/-- Each thread starts before the next event is handled. -/
theorem oneshot_served_two : Served ((play (fun s e => Legal s e ∧ Orderly s e) step start
    (twoReadable ++ [.handle none, .workerStart 0, .handle none, .workerStart 1, .workerRecv 0 (.data [97]),
      .workerRecv 0 .again])).get (by decide)) :=
  (oneshot_served (reach_of_play init_start (Option.some_get _).symm)).1

/-- Both events are handled before a thread starts: both workers read from the second socket. -/
theorem not_oneshot_served : ¬ ∀ s : Server, Reach Init Legal step s → Served s := by
  intro h
  let s := (play Legal step start (twoReadable ++ [.handle none, .handle none, .workerStart 0,
    .workerStart 1])).get (by decide)
  have hs := h s (reach_of_play init_start (Option.some_get _).symm)
  have hsix : (s.thread 0).worker.map Worker.sockfd = some 6 := by decide
  obtain ⟨w, hw, hfd⟩ := Option.map_eq_some_iff.mp hsix
  have hown := hs.own 0 (by decide) w hw
  rw [hfd] at hown
  exact absurd hown (by decide)

end LinuxServer.Oneshot
