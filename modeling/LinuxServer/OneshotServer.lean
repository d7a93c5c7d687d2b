import LinuxServer.Flow
import LinuxServer.OneshotHandover
import LinuxServer.OneshotWorker

/-!
# The sockets of `9-4_EPOLLONESHOT.cpp`

The main loop and the workers together with what the clients send, which may come between any
two steps, also between the `recv` of a worker and the rest of its round.  `reset_oneshot` has
the kernel look at the socket again.  In an orderly run every socket is left to one worker at a
time; then nothing is read twice, printed out of order or left behind.
-/

namespace LinuxServer.Oneshot
open CString

/-- The bytes not received yet, and whether the client has shut down after them. -/
structure Socket where
  queue : List UInt8
  shut : Bool
  deriving DecidableEq, Repr

def Socket.readable (s : Socket) : Bool := s.queue ≠ [] || s.shut

/-- `recv` of at most `len` bytes, and what it leaves. -/
def Socket.recv (len : ℕ) (s : Socket) : RecvResult × Socket :=
  if s.queue ≠ [] then (.data (s.queue.take len), { s with queue := s.queue.drop len })
  else if s.shut then (.eof, s)
  else (.again, s)

/-- The chunk that `recv` returned, if any. -/
def RecvResult.chunk : RecvResult → List (List UInt8)
  | .data bytes => [bytes]
  | _ => []

/-- The server with the contents of the client sockets and the arrivals that were not reported.
`result` has what `recv` has returned to a worker with the rest of the round still to come;
`chunks` and `lines` have what was received from a descriptor, and what was printed of it. -/
structure System where
  server : Server
  socket : ℤ → Socket
  edge : ℤ → Bool
  result : ℕ → Option RecvResult
  chunks : ℤ → List (List UInt8)
  lines : ℤ → List (List UInt8)

inductive Input
  | arrive (fd : ℤ) (bytes : List UInt8)
  | shutdown (fd : ℤ)
  | epollWait (ready : List (ℤ × Bool))
  | handle (conn : Option (ℤ × Socket))
  | workerStart (k : ℕ)
  | recv (k : ℕ) (fails : Bool)
  | act (k : ℕ)
  deriving DecidableEq, Repr

namespace System

/-- Something happens to the socket of a client. -/
def change (s : System) (fd : ℤ) (f : Socket → Socket) : Option System :=
  if s.server.armed fd = none ∨ (s.socket fd).shut = true then none
  else some { s with
    socket := Function.update s.socket fd (f (s.socket fd))
    edge := Function.update s.edge fd true }

/-- `accept` has returned a connection. -/
def accept (s : System) (fd : ℤ) (sock : Socket) : System :=
  { s with
    socket := Function.update s.socket fd sock
    edge := Function.update s.edge fd sock.readable }

/-- The `recv` of the worker `k`.  On a closed socket it fails, on others it may. -/
def recv (s : System) (k : ℕ) (fd : ℤ) (fails : Bool) : System :=
  if fails ∨ s.server.armed fd = none then { s with result := Function.update s.result k (some .error) }
  else
    let (r, sock) := (s.socket fd).recv (bufferSize - 1)
    { s with
      socket := Function.update s.socket fd sock
      result := Function.update s.result k (some r)
      chunks := Function.update s.chunks fd (s.chunks fd ++ r.chunk) }

/-- The rest of the round of the worker `w`: `printf`, `close` or `reset_oneshot`. -/
def act (s : System) (k : ℕ) (w : Worker) (r : RecvResult) (server : Server) : System :=
  { s with
    server := server
    edge := if r = .again then Function.update s.edge w.sockfd (s.socket w.sockfd).readable else s.edge
    result := Function.update s.result k none
    lines := Function.update s.lines w.sockfd
      (s.lines w.sockfd ++ ((w.turn r).elim [] Prod.snd).filterMap Action.printed) }

def turn (s : System) : Input → Option System
  | .arrive fd bytes => s.change fd fun sock => { sock with queue := sock.queue ++ bytes }
  | .shutdown fd => s.change fd fun sock => { sock with shut := true }
  | .epollWait ready =>
    (step s.server (.epollWait ready)).map fun server => { s with
      server := server
      edge := fun fd => s.edge fd && decide (fd ∉ ready.map Prod.fst) }
  | .handle conn =>
    (step s.server (.handle (conn.map Prod.fst))).map fun server =>
      conn.elim { s with server := server } fun c => { s with server := server }.accept c.1 c.2
  | .workerStart k => (step s.server (.workerStart k)).map fun server => { s with server := server }
  | .recv k fails =>
    match (s.server.thread k).worker, s.result k with
    | some w, none => if w.running then some (s.recv k w.sockfd fails) else none
    | _, _ => none
  | .act k =>
    match (s.server.thread k).worker, s.result k with
    | some w, some r => (step s.server (.workerRecv k r)).map (s.act k w r)
    | _, _ => none

/-- In front of the main loop. -/
def Init (s : System) : Prop :=
  Oneshot.Init s.server ∧ (∀ k, s.result k = none) ∧ (∀ fd, s.chunks fd = []) ∧ ∀ fd, s.lines fd = []

def start : System where
  server := Oneshot.start
  socket _ := ⟨[], false⟩
  edge _ := false
  result _ := none
  chunks _ := []
  lines _ := []

theorem init_start : Init start := ⟨Oneshot.init_start, fun _ => rfl, fun _ => rfl, fun _ => rfl⟩

/-- What the system promises: of the clients `epoll_wait` reports those with an unreported
arrival, and a connection comes from `accept`. -/
def Legal (s : System) : Input → Prop
  | .epollWait ready => Oneshot.Legal s.server (.epollWait ready) ∧
      ∀ e ∈ ready, e.1 ≠ s.server.listenfd → s.edge e.1 = true
  | .handle conn => Oneshot.Legal s.server (.handle (conn.map Prod.fst)) ∧
      (conn ≠ none → ∃ e ∈ s.server.events.bind List.head?, e.1 = s.server.listenfd)
  | .workerStart k => k < s.server.created
  | .recv k _ => k < s.server.created
  | .act k => k < s.server.created
  | _ => True

instance (s : System) : (i : Input) → Decidable (Legal s i)
  | .epollWait _ => inferInstanceAs (Decidable (_ ∧ _))
  | .handle none => inferInstanceAs (Decidable (_ ∧ (_ → ∃ e ∈ _, _)))
  | .handle (some _) => inferInstanceAs (Decidable (_ ∧ (_ → ∃ e ∈ _, _)))
  | .workerStart _ => inferInstanceAs (Decidable (_ < _))
  | .recv _ _ => inferInstanceAs (Decidable (_ < _))
  | .act _ => inferInstanceAs (Decidable (_ < _))
  | .arrive _ _ => isTrue trivial
  | .shutdown _ => isTrue trivial

/-- The main loop starts the next thread after the last one has read its argument, and every
event of a client has `EPOLLIN` set, as it is for whatever can happen to these sockets. -/
def Orderly (s : System) : Input → Prop
  | .handle _ => Oneshot.Orderly s.server (.handle none)
  | _ => True

instance (s : System) : (i : Input) → Decidable (Orderly s i)
  | .handle _ => inferInstanceAs (Decidable (Oneshot.Orderly s.server (.handle none)))
  | .epollWait _ => isTrue trivial
  | .workerStart _ => isTrue trivial
  | .recv _ _ => isTrue trivial
  | .act _ => isTrue trivial
  | .arrive _ _ => isTrue trivial
  | .shutdown _ => isTrue trivial

variable {s s' t : System} {i : Input} {fd : ℤ} {k l : ℕ} {w : Worker} {r : RecvResult}

/-! ## The invariant -/

/-- Every line starts with the text of its chunk. -/
def Told : List (List UInt8) → List (List UInt8) → Prop := List.Forall₂ fun c line => cstr c <+: line

/-- What is the case while a worker of the socket `fd` has the result `r` in its hand. -/
def Back (s : System) (fd : ℤ) : RecvResult → Prop
  | .data c => (1 ≤ c.length ∧ c.length ≤ bufferSize - 1) ∧
      ∃ before, s.chunks fd = before ++ [c] ∧ Told before (s.lines fd)
  | .eof => s.socket fd = ⟨[], true⟩
  | _ => True

/-- The last byte of a buffer is never written to. -/
def Terminated (buf : List UInt8) : Prop := ∃ u, buf = u ++ [0] ∧ u.length = bufferSize - 1

/-- An armed socket with something to read is about to be reported, and what was received but not
printed is in the hand of the worker of the socket. -/
structure Kept (s : System) : Prop where
  handover : Handover s.server
  edge : ∀ fd, s.server.armed fd = some true → (s.socket fd).readable = true → s.edge fd = true
  busy : ∀ k r, s.result k = some r → k < s.server.created ∧
    ∃ w, (s.server.thread k).worker = some w ∧ w.running = true
  back : ∀ k r, s.result k = some r → s.Back (s.server.thread k).origin r
  told : ∀ fd, (∀ k c, s.result k = some (.data c) → (s.server.thread k).origin ≠ fd) →
    Told (s.chunks fd) (s.lines fd)
  buf : ∀ k < s.server.created, ∀ w, (s.server.thread k).worker = some w → Terminated w.buf

theorem Kept.active (h : Kept s) (hr : s.result k = some r) :
    k < s.server.created ∧ (s.server.thread k).active = true := by
  obtain ⟨hk, w, hw, hrun⟩ := h.busy k r hr
  exact ⟨hk, looping_active hw hrun⟩

/-- Two threads that have not ended have different sockets. -/
theorem Kept.origin_ne (h : Kept s) (hr : s.result l = some r) (hk : k < s.server.created)
    (ha : (s.server.thread k).active = true) (hlk : l ≠ k) :
    (s.server.thread l).origin ≠ (s.server.thread k).origin := fun he =>
  hlk (h.handover.distinct l (h.active hr).1 k hk (h.active hr).2 ha he)

/-- A step that changes no result leaves what is known about those in hand. -/
theorem Kept.frame (h : Kept s) (hh : Handover t.server) (hresult : t.result = s.result)
    (hchunks : t.chunks = s.chunks) (hlines : t.lines = s.lines)
    (hthread : ∀ k < s.server.created, (s.server.thread k).worker ≠ none →
      k < t.server.created ∧ t.server.thread k = s.server.thread k)
    (hedge : ∀ fd, t.server.armed fd = some true → (t.socket fd).readable = true → t.edge fd = true)
    (hsocket : ∀ fd, s.server.armed fd = some false → s.socket fd = ⟨[], true⟩ → t.socket fd = ⟨[], true⟩)
    (hbuf : ∀ k < t.server.created, ∀ w, (t.server.thread k).worker = some w → Terminated w.buf) :
    Kept t := by
  have hsame : ∀ k r, t.result k = some r → k < t.server.created ∧ s.result k = some r ∧
      t.server.thread k = s.server.thread k := by
    intro k r hr
    rw [hresult] at hr
    obtain ⟨hk, w, hw, -⟩ := h.busy k r hr
    obtain ⟨hk', ht⟩ := hthread k hk (by simp [hw])
    exact ⟨hk', hr, ht⟩
  refine ⟨hh, hedge, fun k r hr => ?_, fun k r hr => ?_, fun fd hno => ?_, hbuf⟩
  · obtain ⟨hk, hr, ht⟩ := hsame k r hr
    obtain ⟨-, w, hw, hrun⟩ := h.busy k r hr
    exact ⟨hk, w, ht ▸ hw, hrun⟩
  · obtain ⟨-, hr, ht⟩ := hsame k r hr
    have hb := h.back k r hr
    rw [ht]
    cases r with
    | data c => simpa only [Back, hchunks, hlines] using hb
    | eof =>
      obtain ⟨hk, ha⟩ := h.active hr
      exact hsocket _ (h.handover.disarmed k hk ha) hb
    | again | error => trivial
  · rw [hchunks, hlines]
    refine h.told fd fun k c hr => ?_
    have hr' : t.result k = some (.data c) := by rw [hresult, hr]
    have ht := (hsame k _ hr').2.2
    rw [← ht]
    exact hno k c hr'

theorem terminated_start (fd : ℤ) : Terminated (Worker.start fd).buf := by
  have hsize : bufferSize = bufferSize - 1 + 1 := rfl
  refine ⟨List.replicate (bufferSize - 1) 0, ?_, List.length_replicate⟩
  show List.replicate bufferSize 0 = _
  rw [hsize, List.replicate_succ']
  rfl

theorem kept_init (h : Init s) : Kept s := by
  obtain ⟨hserver, hresult, hchunks, hlines⟩ := h
  have hcreated := hserver.2.1
  refine ⟨handover_init hserver, fun fd ha => ?_, fun k r hr => ?_, fun k r hr => ?_, fun fd _ => ?_,
    fun k hk => by omega⟩
  · rw [hserver.2.2] at ha
    cases ha
  · rw [hresult] at hr
    cases hr
  · rw [hresult] at hr
    cases hr
  · rw [hchunks, hlines]
    exact .nil

/-! ## The steps -/

theorem change_eq {f : Socket → Socket} (h : s.change fd f = some s') :
    s.server.armed fd ≠ none ∧ (s.socket fd).shut = false ∧ s' = { s with
      socket := Function.update s.socket fd (f (s.socket fd))
      edge := Function.update s.edge fd true } := by
  unfold change at h
  split at h
  next => cases h
  next hno =>
    rw [not_or] at hno
    exact ⟨hno.1, by simpa using hno.2, (Option.some.inj h).symm⟩

theorem Kept.change {f : Socket → Socket} (h : Kept s) (hs : s.change fd f = some s') : Kept s' := by
  obtain ⟨-, hshut, rfl⟩ := change_eq hs
  refine h.frame h.handover rfl rfl rfl (fun k hk _ => ⟨hk, rfl⟩) (fun fd' ha hr => ?_)
    (fun fd' _ he => ?_) h.buf
  · by_cases he : fd' = fd
    · subst he
      exact Function.update_self ..
    · simp only [Function.update_of_ne he] at hr ⊢
      exact h.edge fd' ha hr
  · have hne : fd' ≠ fd := by
      rintro rfl
      rw [he] at hshut
      cases hshut
    simp only [Function.update_of_ne hne]
    exact he

theorem Kept.epollWait {ready : List (ℤ × Bool)} (h : Kept s) (hok : Legal s (.epollWait ready))
    (hs : turn s (.epollWait ready) = some s') : Kept s' := by
  simp only [turn, Option.map_eq_some_iff] at hs
  obtain ⟨server, hs, rfl⟩ := hs
  have hh := handover_step h.handover hok.1 trivial hs
  obtain ⟨-, rfl⟩ := epollWait_eq hs
  refine h.frame hh rfl rfl rfl (fun k hk _ => ⟨hk, rfl⟩) (fun fd ha hr => ?_) (fun fd _ he => he) h.buf
  -- what is still armed was not reported
  by_cases hm : fd ∈ ready.map Prod.fst
  · simp only [if_pos hm, Option.map_eq_some_iff] at ha
    obtain ⟨b, -, hb⟩ := ha
    cases hb
  · simp only [if_neg hm] at ha
    simp [h.edge fd ha hr, hm]

theorem accepted_eq {connfd : ℤ} {sock : Socket} (hok : Legal s (.handle (some (connfd, sock))))
    (hs : turn s (.handle (some (connfd, sock))) = some s') :
    s.server.armed connfd = none ∧ ∃ rest, step s.server (.handle (some connfd)) = some { s.server with
        events := some rest
        armed := Function.update s.server.armed connfd (some true) } ∧
      s' = { s with server := { s.server with
        events := some rest
        armed := Function.update s.server.armed connfd (some true) } }.accept connfd sock := by
  simp only [turn, Option.map_eq_some_iff] at hs
  obtain ⟨server, hs, rfl⟩ := hs
  obtain ⟨e, he, hlisten⟩ := hok.2 (by simp)
  refine ⟨hok.1.2, ?_⟩
  cases handle_move hs with
  | done _ hev => simp [hev] at he
  | other _ fd rest hev hfd | dispatched _ fd rest hev hfd =>
    simp only [hev, Option.bind_some, List.head?_cons, Option.mem_def, Option.some.injEq] at he
    subst he
    exact absurd hlisten hfd
  | accepted _ readable rest hev => exact ⟨rest, hs, rfl⟩

theorem Kept.handle {conn : Option (ℤ × Socket)} (h : Kept s) (hok : Legal s (.handle conn))
    (ho : Orderly s (.handle conn)) (hs : turn s (.handle conn) = some s') : Kept s' := by
  have hno : ∀ {server : Server}, server.thread = s.server.thread → server.created = s.server.created →
      ∀ k < s.server.created, (s.server.thread k).worker ≠ none →
        k < server.created ∧ server.thread k = s.server.thread k := by
    intro server h1 h2 k hk _
    rw [h1, h2]
    exact ⟨hk, rfl⟩
  cases conn with
  | none =>
    simp only [turn, Option.map_eq_some_iff] at hs
    obtain ⟨server, hs, rfl⟩ := hs
    have hh := handover_step h.handover hok.1 ho hs
    cases handle_move hs with
    | done _ hev => exact h.frame hh rfl rfl rfl (hno rfl rfl) h.edge (fun _ _ he => he) h.buf
    | refused readable rest hev =>
      exact h.frame hh rfl rfl rfl (hno rfl rfl) h.edge (fun _ _ he => he) h.buf
    | other _ fd rest hev hfd =>
      exact h.frame hh rfl rfl rfl (hno rfl rfl) h.edge (fun _ _ he => he) h.buf
    | dispatched _ fd rest hev hfd =>
      have hne : ∀ k < s.server.created, k ≠ s.server.created := fun k hk => by omega
      refine h.frame hh rfl rfl rfl (fun k hk _ => ?_) h.edge (fun _ _ he => he) (fun k hk w hw => ?_)
      · exact ⟨Nat.lt_succ_of_lt hk, Function.update_of_ne (hne k hk) _ _⟩
      · have hk : k < s.server.created + 1 := hk
        by_cases he : k = s.server.created
        · subst he
          simp [Server.dispatch] at hw
        · simp only [Option.elim_none, Server.dispatch, Function.update_of_ne he] at hw
          exact h.buf k (by omega) w hw
  | some c =>
    obtain ⟨connfd, sock⟩ := c
    obtain ⟨hnone, rest, heq, rfl⟩ := accepted_eq hok hs
    have hh := handover_step h.handover hok.1 ho heq
    refine h.frame hh rfl rfl rfl (hno rfl rfl) (fun fd ha hr => ?_) (fun fd ha hs => ?_) h.buf
    · by_cases hfd : fd = connfd
      · subst hfd
        simpa [accept] using hr
      · simp only [accept, Function.update_of_ne hfd] at ha hr ⊢
        exact h.edge fd ha hr
    · have hfd : fd ≠ connfd := by
        rintro rfl
        rw [ha] at hnone
        cases hnone
      simpa [accept, hfd] using hs

theorem Kept.workerStart (h : Kept s) (hok : Legal s (.workerStart k))
    (hs : turn s (.workerStart k) = some s') : Kept s' := by
  simp only [turn, Option.map_eq_some_iff] at hs
  obtain ⟨server, hs, rfl⟩ := hs
  have hh := handover_step (e := .workerStart k) h.handover hok trivial hs
  obtain ⟨hnone, rfl⟩ := workerStart_eq hs
  refine h.frame hh rfl rfl rfl (fun l hl hw => ⟨hl, ?_⟩) h.edge (fun _ _ he => he) (fun l hl w hw => ?_)
  · have hlk : l ≠ k := by
      rintro rfl
      exact hw hnone
    exact Function.update_of_ne hlk _ _
  · by_cases hlk : l = k
    · subst hlk
      simp only [Function.update_self, Option.some.injEq] at hw
      subst hw
      exact terminated_start _
    · simp only [Function.update_of_ne hlk] at hw
      exact h.buf l hl w hw

/-- What `recv` returns on the socket `fd`, and what it leaves there. -/
inductive Received (s : System) (fd : ℤ) : RecvResult → Socket → Prop
  | data (hopen : s.server.armed fd ≠ none) (hqueue : (s.socket fd).queue ≠ []) :
      Received s fd (.data ((s.socket fd).queue.take (bufferSize - 1)))
        { s.socket fd with queue := (s.socket fd).queue.drop (bufferSize - 1) }
  | eof (hend : s.socket fd = ⟨[], true⟩) : Received s fd .eof (s.socket fd)
  | again : Received s fd .again (s.socket fd)
  | error : Received s fd .error (s.socket fd)

theorem recv_eq {fails : Bool} (h : turn s (.recv k fails) = some s') :
    ∃ w r sock, (s.server.thread k).worker = some w ∧ w.running = true ∧ s.result k = none ∧
      Received s w.sockfd r sock ∧ s' = { s with
        socket := Function.update s.socket w.sockfd sock
        result := Function.update s.result k (some r)
        chunks := Function.update s.chunks w.sockfd (s.chunks w.sockfd ++ r.chunk) } := by
  simp only [turn] at h
  split at h
  next w hw hresult =>
    split at h
    next hrun =>
      obtain rfl := Option.some.inj h
      unfold recv
      split
      next =>
        refine ⟨w, .error, s.socket w.sockfd, hw, hrun, hresult, .error, ?_⟩
        simp [RecvResult.chunk]
      next hopen =>
        rw [not_or] at hopen
        simp only [Socket.recv]
        split
        next hq => exact ⟨w, _, _, hw, hrun, hresult, .data hopen.2 hq, rfl⟩
        next hq =>
          split
          next hshut =>
            have hend : s.socket w.sockfd = ⟨[], true⟩ := by
              cases hs : s.socket w.sockfd
              simp_all
            exact ⟨w, _, _, hw, hrun, hresult, .eof hend, rfl⟩
          next => exact ⟨w, _, _, hw, hrun, hresult, .again, rfl⟩
    next => cases h
  next => cases h

theorem Kept.recv {fails : Bool} (h : Kept s) (hok : Legal s (.recv k fails))
    (hs : turn s (.recv k fails) = some s') : Kept s' := by
  obtain ⟨w, r, sock, hw, hrun, hnone, hreceived, rfl⟩ := recv_eq hs
  have hk : k < s.server.created := hok
  have ha := looping_active hw hrun
  have hown := h.handover.own k hk w hw
  have harmed : s.server.armed w.sockfd = some false := hown ▸ h.handover.disarmed k hk ha
  have hne : ∀ l r, s.result l = some r → l ≠ k := by
    rintro l r hr rfl
    rw [hnone] at hr
    cases hr
  have hfree : ∀ l r, s.result l = some r → (s.server.thread l).origin ≠ w.sockfd := fun l r hr =>
    hown ▸ h.origin_ne hr hk ha (hne l r hr)
  have hothers : ∀ l r', l ≠ k → Function.update s.result k (some r) l = some r' → s.result l = some r' := by
    intro l r' hlk hr
    rwa [Function.update_of_ne hlk] at hr
  have htold : Told (s.chunks w.sockfd) (s.lines w.sockfd) := h.told _ fun l c hr => hfree l _ hr
  refine ⟨h.handover, fun fd hfd hread => ?_, fun l r' hr => ?_, fun l r' hr => ?_, fun fd hno => ?_, h.buf⟩
  · have hfd' : fd ≠ w.sockfd := by
      rintro rfl
      cases harmed.symm.trans hfd
    simp only [Function.update_of_ne hfd'] at hread
    exact h.edge fd hfd hread
  · by_cases hlk : l = k
    · subst hlk
      exact ⟨hk, w, hw, hrun⟩
    · exact h.busy l r' (hothers l r' hlk hr)
  · by_cases hlk : l = k
    · subst hlk
      simp only [Function.update_self, Option.some.injEq] at hr
      subst hr
      rw [← hown]
      cases hreceived with
      | data hopen hq =>
        refine ⟨⟨?_, ?_⟩, s.chunks w.sockfd, by simp [RecvResult.chunk], htold⟩
        · rw [List.length_take]
          have := List.length_pos_iff.mpr hq
          have : 1 ≤ bufferSize - 1 := by decide
          omega
        · exact List.length_take_le _ _
      | eof hend => simpa [Back] using hend
      | again | error => trivial
    · have hr' := hothers l r' hlk hr
      have hb := h.back l r' hr'
      have hfd := hfree l r' hr'
      cases r' with
      | data c => simpa only [Back, Function.update_of_ne hfd] using hb
      | eof => simpa only [Back, Function.update_of_ne hfd] using hb
      | again | error => trivial
  · by_cases hfd : fd = w.sockfd
    · subst hfd
      have hchunk : r.chunk = [] := by
        cases r with
        | data c => exact absurd hown.symm (hno k c (Function.update_self ..))
        | eof | again | error => rfl
      simpa [hchunk] using htold
    · simp only [Function.update_of_ne hfd]
      exact h.told fd fun l c hr => hno l c ((Function.update_of_ne (hne l _ hr) _ _).trans hr)

theorem cstr_append (c rest : List UInt8) : cstr c <+: cstr (c ++ rest) := by
  unfold cstr
  rw [List.takeWhile_append]
  split
  next =>
    refine (List.takeWhile_prefix _).trans ?_
    exact List.prefix_append c _
  next => exact List.prefix_rfl

/-- Storing a chunk keeps the last byte of the buffer, and the text starts with the chunk's. -/
theorem terminated_store {buf c : List UInt8} (h : Terminated buf) (hc : c.length ≤ bufferSize - 1) :
    Terminated (c ++ buf.drop c.length) ∧
      ∃ line, str (c ++ buf.drop c.length) 0 = some line ∧ cstr c <+: line := by
  obtain ⟨u, rfl, hu⟩ := h
  have hbuf : c ++ (u ++ [0]).drop c.length = c ++ u.drop c.length ++ [0] := by
    rw [List.drop_append_of_le_length (by omega), List.append_assoc]
  rw [hbuf]
  refine ⟨⟨_, rfl, ?_⟩, _, str_zeros (n := 1) _ (by omega), cstr_append _ _⟩
  rw [List.length_append, List.length_drop]
  omega

/-- What the rest of a round does, and what it prints. -/
inductive Acted (s : Server) (k : ℕ) (w : Worker) : RecvResult → Server → List (List UInt8) → Prop
  | data (c line : List UInt8) (hline : str (c ++ w.buf.drop c.length) 0 = some line) :
      Acted s k w (.data c) { s with
        thread := Function.update s.thread k
          { s.thread k with worker := some { w with buf := c ++ w.buf.drop c.length } } } [line]
  | eof : Acted s k w .eof { s with
      thread := Function.update s.thread k { s.thread k with worker := some { w with running := false } }
      armed := Function.update s.armed w.sockfd none } []
  | again : Acted s k w .again { s with
      thread := Function.update s.thread k { s.thread k with worker := some { w with running := false } }
      armed := Function.update s.armed w.sockfd ((s.armed w.sockfd).map fun _ => true) } []
  | error : Acted s k w .error { s with
      thread := Function.update s.thread k { s.thread k with worker := some w } } []

theorem workerRecv_acted {s s' : Server} (hw : (s.thread k).worker = some w) (hrun : w.running = true)
    (h : step s (.workerRecv k r) = some s') :
    Acted s k w r s' (((w.turn r).elim [] Prod.snd).filterMap Action.printed) := by
  simp only [step, Server.workerRecv, hw, hrun, if_true, Option.bind_eq_bind] at h
  cases r with
  | data c =>
    obtain ⟨⟨w', actions⟩, hturn, hs⟩ := Option.bind_eq_some_iff.mp h
    rw [hturn]
    simp only [Worker.turn, Option.bind_eq_bind, Option.bind_eq_some_iff] at hturn
    obtain ⟨line, hline, hc⟩ := hturn
    cases hc
    obtain rfl := Option.some.inj hs
    exact .data c line hline
  | eof =>
    obtain rfl := Option.some.inj h
    exact .eof
  | again =>
    obtain rfl := Option.some.inj h
    exact .again
  | error =>
    obtain rfl := Option.some.inj h
    exact .error

theorem act_eq (h : turn s (.act k) = some s') : ∃ w r server, (s.server.thread k).worker = some w ∧
    s.result k = some r ∧ step s.server (.workerRecv k r) = some server ∧ s' = s.act k w r server := by
  simp only [turn] at h
  split at h
  next w r hw hr =>
    obtain ⟨server, hs, rfl⟩ := Option.map_eq_some_iff.mp h
    exact ⟨w, r, server, hw, hr, hs, rfl⟩
  next => cases h

/-- What `recv` has returned it could still return, as nobody else closes the socket. -/
theorem Kept.legal (h : Kept s) (hr : s.result k = some r) : Oneshot.Legal s.server (.workerRecv k r) := by
  obtain ⟨hk, ha⟩ := h.active hr
  refine ⟨hk, fun w hw => ?_⟩
  have hopen : s.server.armed w.sockfd ≠ none := by
    rw [h.handover.own k hk w hw, h.handover.disarmed k hk ha]
    simp
  have hb := h.back k r hr
  cases r with
  | data c => exact ⟨hopen, hb.1⟩
  | eof | again => exact hopen
  | error => trivial

/-- The worker `k` finishes its round, with or without its loop. -/
theorem Kept.round {w' : Worker} {edge : ℤ → Bool} {printed : List (List UInt8)} (h : Kept s)
    (armed : ℤ → Option Bool) (hr : s.result k = some r) (hw : (s.server.thread k).worker = some w)
    (hh : Handover { s.server with
      thread := Function.update s.server.thread k { s.server.thread k with worker := some w' }
      armed := armed })
    (hedge : ∀ fd, armed fd = some true → (s.socket fd).readable = true → edge fd = true)
    (hprinted : Told (s.chunks w.sockfd) (s.lines w.sockfd ++ printed)) (hbuf : Terminated w'.buf) :
    Kept { s with
      server := { s.server with
        thread := Function.update s.server.thread k { s.server.thread k with worker := some w' }
        armed := armed }
      edge := edge
      result := Function.update s.result k none
      lines := Function.update s.lines w.sockfd (s.lines w.sockfd ++ printed) } := by
  obtain ⟨hk, ha⟩ := h.active hr
  have hown := h.handover.own k hk w hw
  have hothers : ∀ l r', Function.update s.result k none l = some r' → l ≠ k ∧ s.result l = some r' := by
    intro l r' hl
    by_cases hlk : l = k
    · subst hlk
      simp at hl
    · rw [Function.update_of_ne hlk] at hl
      exact ⟨hlk, hl⟩
  refine ⟨hh, hedge, fun l r' hl => ?_, fun l r' hl => ?_, fun fd hno => ?_, fun l hl v hv => ?_⟩
  · obtain ⟨hlk, hl⟩ := hothers l r' hl
    obtain ⟨hlt, v, hv, hrun⟩ := h.busy l r' hl
    exact ⟨hlt, v, by simpa only [Function.update_of_ne hlk] using hv, hrun⟩
  · obtain ⟨hlk, hl⟩ := hothers l r' hl
    have hb := h.back l r' hl
    have hfd : (s.server.thread l).origin ≠ w.sockfd := hown ▸ h.origin_ne hl hk ha hlk
    simp only [update_origin]
    cases r' with
    | data c => simpa only [Back, Function.update_of_ne hfd] using hb
    | eof => exact hb
    | again | error => trivial
  · by_cases hfd : fd = w.sockfd
    · subst hfd
      simpa only [Function.update_self] using hprinted
    · simp only [Function.update_of_ne hfd]
      refine h.told fd fun l c hl => ?_
      by_cases hlk : l = k
      · subst hlk
        exact fun he => hfd (he.symm.trans hown.symm)
      · have hl' : Function.update s.result k none l = some (.data c) := by rwa [Function.update_of_ne hlk]
        simpa only [update_origin] using hno l c hl'
  · by_cases hlk : l = k
    · subst hlk
      simp only [Function.update_self, Option.some.injEq] at hv
      exact hv ▸ hbuf
    · simp only [Function.update_of_ne hlk] at hv
      exact h.buf l hl v hv

theorem Kept.act (h : Kept s) (hs : turn s (.act k) = some s') : Kept s' := by
  obtain ⟨w, r, server, hw, hr, hstep, rfl⟩ := act_eq hs
  obtain ⟨hk, v, hv, hrun⟩ := h.busy k r hr
  obtain rfl := Option.some.inj (hw.symm.trans hv)
  have ha := looping_active hw hrun
  have hown := h.handover.own k hk w hw
  have hh := handover_step h.handover (h.legal hr) trivial hstep
  have hterm := h.buf k hk w hw
  have hback := h.back k r hr
  rw [← hown] at hback
  have htold : (∀ c, r ≠ .data c) → Told (s.chunks w.sockfd) (s.lines w.sockfd ++ []) := by
    intro hno
    rw [List.append_nil]
    refine h.told _ fun l c hl => ?_
    by_cases hlk : l = k
    · subst hlk
      exact absurd (Option.some.inj (hr.symm.trans hl)) (hno c)
    · exact hown ▸ h.origin_ne hl hk ha hlk
  have hacted := workerRecv_acted hw hrun hstep
  unfold System.act
  generalize ((w.turn r).elim [] Prod.snd).filterMap Action.printed = printed at hacted ⊢
  cases hacted with
  | data c line hline =>
    obtain ⟨hlen, before, hchunks, hbefore⟩ := hback
    obtain ⟨hbuf, line', hline', hprefix⟩ := terminated_store hterm hlen.2
    obtain rfl := Option.some.inj (hline.symm.trans hline')
    refine h.round s.server.armed hr hw hh (by simpa using h.edge) ?_ hbuf
    rw [hchunks]
    exact List.rel_append hbefore (.cons hprefix .nil)
  | error =>
    exact h.round s.server.armed hr hw hh (by simpa using h.edge) (htold (by simp)) hterm
  | eof =>
    refine h.round _ hr hw hh (fun fd hfd hread => ?_) (htold (by simp)) hterm
    have hne : fd ≠ w.sockfd := by
      rintro rfl
      simp at hfd
    rw [Function.update_of_ne hne] at hfd
    simpa using h.edge fd hfd hread
  | again =>
    refine h.round _ hr hw hh (fun fd hfd hread => ?_) (htold (by simp)) hterm
    by_cases hne : fd = w.sockfd
    · subst hne
      simpa using hread
    · rw [Function.update_of_ne hne] at hfd
      simpa [hne] using h.edge fd hfd hread

theorem Kept.turn (h : Kept s) (hok : Legal s i) (ho : Orderly s i) (hs : s.turn i = some s') : Kept s' := by
  cases i with
  | arrive | shutdown =>
    simp only [System.turn] at hs
    exact h.change hs
  | epollWait ready => exact h.epollWait hok hs
  | handle conn => exact h.handle hok ho hs
  | workerStart k => exact h.workerStart hok hs
  | recv k fails => exact h.recv hok hs
  | act k => exact h.act hs

theorem kept_reach (h : Reach Init (fun s i => Legal s i ∧ Orderly s i) System.turn s) : Kept s :=
  h.invariant (I := Kept) (fun _ => kept_init) fun _ _ _ hi hok hs => hi.turn hok.1 hok.2 hs

/-! ## Runs -/

/-- `epoll_wait` may return the client socket `fd`. -/
def Reportable (s : System) (fd : ℤ) : Prop := s.server.armed fd = some true ∧ s.edge fd = true

/-- In an orderly run, whenever the main loop waits, an open socket with something to read is
about to be reported or is left to exactly one thread that has not ended. -/
theorem nothing_unattended (h : Reach Init (fun s i => Legal s i ∧ Orderly s i) System.turn s)
    (hwait : s.server.events = none) (hopen : s.server.armed fd ≠ none)
    (hread : (s.socket fd).readable = true) : s.Reportable fd ∨
      ∃! k, k < s.server.created ∧ (s.server.thread k).origin = fd ∧ (s.server.thread k).active = true := by
  have hk := kept_reach h
  cases ha : s.server.armed fd with
  | none => exact absurd ha hopen
  | some armed =>
    cases armed with
    | true => exact .inl ⟨ha, hk.edge fd ha hread⟩
    | false =>
      right
      rcases hk.handover.tended fd ha with ⟨events, readable, hev, -⟩ | ⟨k, hlt, ho, hactive⟩
      · cases hwait.symm.trans hev
      · refine ⟨k, ⟨hlt, ho, hactive⟩, fun l hl => ?_⟩
        obtain ⟨hlt', ho', hactive'⟩ := hl
        exact hk.handover.distinct l hlt' k hlt hactive' hactive (ho'.trans ho.symm)

/-- A byte comes between the last `recv` of the worker and `reset_oneshot`. -/
theorem nothing_unattended_late : ∃ s : System, (s.socket 5).readable = true ∧ (s.Reportable 5 ∨
    ∃! k, k < s.server.created ∧ (s.server.thread k).origin = 5 ∧ (s.server.thread k).active = true) := by
  let s := (play (fun s i => Legal s i ∧ Orderly s i) System.turn start [.epollWait [(3, true)],
    .handle (some (5, ⟨[97], false⟩)), .handle none, .epollWait [(5, true)], .handle none, .workerStart 0,
    .handle none, .recv 0 false, .act 0, .recv 0 false, .arrive 5 [98], .act 0]).get (by decide)
  have h : Reach Init (fun s i => Legal s i ∧ Orderly s i) System.turn s :=
    reach_of_play init_start (Option.some_get _).symm
  have hwait : s.server.events = none := by decide
  have hread : (s.socket 5).readable = true := by decide
  exact ⟨s, hread, nothing_unattended h hwait (by decide) hread⟩

/-! ## What is printed -/

theorem Kept.act_isSome (h : Kept s) (hr : s.result k = some r) : (s.turn (.act k)).isSome = true := by
  obtain ⟨hk, w, hw, hrun⟩ := h.busy k r hr
  simp only [System.turn, hw, hr, Option.isSome_map, step, Server.workerRecv, hrun, if_true]
  cases r with
  | data c =>
    have hlen := (h.back k _ hr).1.2
    obtain ⟨-, line, hline, -⟩ := terminated_store (h.buf k hk w hw) hlen
    simp [Worker.turn, hline]
  | eof | again | error => rfl

/-- In an orderly run every chunk received from a socket is printed, in the order in which they
were received, but for the one that a worker has in its hand and goes on to print. -/
theorem printed_in_order (h : Reach Init (fun s i => Legal s i ∧ Orderly s i) System.turn s) (fd : ℤ) :
    Told (s.chunks fd) (s.lines fd) ∨ ∃ before c k, s.chunks fd = before ++ [c] ∧ Told before (s.lines fd) ∧
      (s.server.thread k).origin = fd ∧ s.result k = some (.data c) ∧ (s.turn (.act k)).isSome = true := by
  have hk := kept_reach h
  by_cases hno : ∀ k c, s.result k = some (.data c) → (s.server.thread k).origin ≠ fd
  · exact .inl (hk.told fd hno)
  · push Not at hno
    obtain ⟨k, c, hr, rfl⟩ := hno
    obtain ⟨-, before, hchunks, hbefore⟩ := hk.back k _ hr
    exact .inr ⟨before, c, k, hchunks, hbefore, rfl, hr, hk.act_isSome hr⟩

/-- A chunk of two bytes is printed, and one of one byte is in the hand of the worker. -/
theorem printed_in_order_two : ∃ s : System, s.chunks 5 = [[97, 98], [99]] ∧ (Told (s.chunks 5) (s.lines 5) ∨
    ∃ before c k, s.chunks 5 = before ++ [c] ∧ Told before (s.lines 5) ∧
      (s.server.thread k).origin = 5 ∧ s.result k = some (.data c) ∧ (s.turn (.act k)).isSome = true) := by
  let s := (play (fun s i => Legal s i ∧ Orderly s i) System.turn start [.epollWait [(3, true)],
    .handle (some (5, ⟨[97, 98], false⟩)), .handle none, .epollWait [(5, true)], .handle none, .workerStart 0,
    .recv 0 false, .act 0, .arrive 5 [99], .recv 0 false]).get (by decide)
  have h : Reach Init (fun s i => Legal s i ∧ Orderly s i) System.turn s :=
    reach_of_play init_start (Option.some_get _).symm
  exact ⟨s, by decide, printed_in_order h 5⟩

/-! ## What is received -/

/-- The bytes received from `fd` and those that wait there. -/
def line (s : System) (fd : ℤ) : List UInt8 :=
  (s.chunks fd).flatten ++ if s.server.armed fd = none then [] else (s.socket fd).queue

/-- The bytes that come in on `fd`: from the arrivals, and from a new connection. -/
def arrived (fd : ℤ) (_ : System) : Input → List UInt8
  | .arrive fd' bytes => if fd' = fd then bytes else []
  | .handle (some (fd', sock)) => if fd' = fd then sock.queue else []
  | _ => []

theorem refused_armed {server : Server} (h : step s.server (.handle none) = some server) :
    server.armed = s.server.armed := by
  cases handle_move h <;> rfl

/-- A worker acts on what its last `recv` gave, the socket it serves is as that left it, and acting
neither reads nor receives. -/
theorem Kept.acting (h : Kept s) (hs : s.turn (.act k) = some s') :
    ∃ w r printed, s.Back w.sockfd r ∧ Acted s.server k w r s'.server printed ∧
      s'.socket = s.socket ∧ s'.chunks = s.chunks := by
  obtain ⟨w, r, server, hw, hr, hstep, rfl⟩ := act_eq hs
  obtain ⟨hk, v, hv, hrun⟩ := h.busy k r hr
  obtain rfl := Option.some.inj (hw.symm.trans hv)
  have hback := h.back k r hr
  rw [← h.handover.own k hk w hw] at hback
  exact ⟨w, r, _, hback, workerRecv_acted hw hrun hstep, rfl, rfl⟩

theorem turn_line (h : Kept s) (hok : Legal s i) (hs : s.turn i = some s') :
    s'.line fd = s.line fd ++ arrived fd s i := by
  cases i with
  | arrive fd' bytes =>
    simp only [System.turn] at hs
    obtain ⟨hopen, -, rfl⟩ := change_eq hs
    by_cases he : fd = fd'
    · subst he
      simp [line, arrived, hopen]
    · simp [line, arrived, he, Ne.symm he]
  | shutdown fd' =>
    simp only [System.turn] at hs
    obtain ⟨hopen, -, rfl⟩ := change_eq hs
    by_cases he : fd = fd'
    · subst he
      simp [line, arrived]
    · simp [line, arrived, he]
  | epollWait ready =>
    simp only [System.turn, Option.map_eq_some_iff] at hs
    obtain ⟨server, hs, rfl⟩ := hs
    obtain ⟨-, rfl⟩ := epollWait_eq hs
    have hsame : (if fd ∈ ready.map Prod.fst then (s.server.armed fd).map fun _ => false
        else s.server.armed fd) = none ↔ s.server.armed fd = none := by
      split
      · exact Option.map_eq_none_iff
      · exact Iff.rfl
    simp only [line, arrived, List.append_nil, hsame]
  | handle conn =>
    cases conn with
    | none =>
      simp only [System.turn, Option.map_eq_some_iff] at hs
      obtain ⟨server, hs, rfl⟩ := hs
      have harmed := refused_armed hs
      simp [line, arrived, harmed]
    | some c =>
      obtain ⟨connfd, sock⟩ := c
      obtain ⟨hnone, rest, -, rfl⟩ := accepted_eq hok hs
      by_cases he : fd = connfd
      · subst he
        simp [line, arrived, accept, hnone]
      · simp [line, arrived, accept, he, Ne.symm he]
  | workerStart k =>
    simp only [System.turn, Option.map_eq_some_iff] at hs
    obtain ⟨server, hs, rfl⟩ := hs
    obtain ⟨-, rfl⟩ := workerStart_eq hs
    exact (List.append_nil _).symm
  | recv k fails =>
    obtain ⟨w, r, sock, hw, hrun, hnone, hreceived, rfl⟩ := recv_eq hs
    by_cases he : fd = w.sockfd
    · subst he
      cases hreceived with
      | data hopen hq => simp [line, arrived, hopen, RecvResult.chunk]
      | eof | again | error => simp [line, arrived, RecvResult.chunk]
    · simp [line, arrived, he]
  | act k =>
    obtain ⟨w, r, printed, hback, hacted, hsocket, hchunks⟩ := h.acting hs
    unfold System.line
    rw [hsocket, hchunks]
    generalize s'.server = server at hacted ⊢
    cases hacted with
    | data | error => exact (List.append_nil _).symm
    | eof =>
      -- what is closed was read to its end
      have hend : s.socket w.sockfd = ⟨[], true⟩ := hback
      by_cases he : fd = w.sockfd
      · subst he
        simp [arrived, hend]
      · simp [arrived, he]
    | again =>
      by_cases he : fd = w.sockfd
      · subst he
        simp [arrived]
      · simp [arrived, he]

/-- In an orderly run the bytes received from a descriptor and those that wait there are all that
has come in on it, in order and once each, over all connections that had the descriptor. -/
theorem received_in_order {es : List Input}
    (h : Reach Init (fun s i => Legal s i ∧ Orderly s i) System.turn s)
    (hrun : Exec (fun s i => Legal s i ∧ Orderly s i) System.turn s es s') (fd : ℤ) :
    s'.line fd = s.line fd ++ brought System.turn (arrived fd) s es :=
  hrun.brings (fun s => s.line fd) (I := Kept) (fun _ _ _ hi hok hs => hi.turn hok.1 hok.2 hs)
    (fun _ _ _ hi hok hs => turn_line hi hok.1 hs) (kept_reach h)

/-- A byte comes while the worker has the one before in its hand. -/
theorem received_in_order_two : ∃ s : System, s.line 5 = [97, 98] := by
  let es : List Input := [.epollWait [(3, true)], .handle (some (5, ⟨[97], false⟩)), .handle none,
    .epollWait [(5, true)], .handle none, .workerStart 0, .recv 0 false, .arrive 5 [98], .act 0]
  let s := (play (fun s i => Legal s i ∧ Orderly s i) System.turn start es).get (by decide)
  have hrun : Exec (fun s i => Legal s i ∧ Orderly s i) System.turn start es s :=
    exec_of_play (Option.some_get _).symm
  have h : s.line 5 = _ := received_in_order (.start init_start) hrun 5
  exact ⟨s, h⟩

/-! ## What is closed -/

/-- In an orderly run a socket is only closed when all that the client sent was received, and the
client has shut down. -/
theorem closed_when_read (h : Reach Init (fun s i => Legal s i ∧ Orderly s i) System.turn s) (hok : Legal s i)
    (hs : s.turn i = some s') (hopen : s.server.armed fd ≠ none) (hclosed : s'.server.armed fd = none) :
    s.socket fd = ⟨[], true⟩ := by
  have hkept := kept_reach h
  have hsame : ∀ {server : Server}, server.armed fd = none → server.armed = s.server.armed →
      s.socket fd = ⟨[], true⟩ := fun hnone heq => absurd (heq ▸ hnone) hopen
  cases i with
  | arrive | shutdown =>
    simp only [System.turn] at hs
    obtain ⟨-, -, rfl⟩ := change_eq hs
    exact hsame hclosed rfl
  | epollWait ready =>
    simp only [System.turn, Option.map_eq_some_iff] at hs
    obtain ⟨server, hs, rfl⟩ := hs
    obtain ⟨-, rfl⟩ := epollWait_eq hs
    simp only at hclosed
    split at hclosed
    · exact absurd (Option.map_eq_none_iff.mp hclosed) hopen
    · exact absurd hclosed hopen
  | handle conn =>
    cases conn with
    | none =>
      simp only [System.turn, Option.map_eq_some_iff] at hs
      obtain ⟨server, hs, rfl⟩ := hs
      exact hsame hclosed (refused_armed hs)
    | some c =>
      obtain ⟨connfd, sock⟩ := c
      obtain ⟨hnone, rest, -, rfl⟩ := accepted_eq hok hs
      have hne : fd ≠ connfd := fun he => hopen (he ▸ hnone)
      simp only [accept, Function.update_of_ne hne] at hclosed
      exact absurd hclosed hopen
  | workerStart k =>
    simp only [System.turn, Option.map_eq_some_iff] at hs
    obtain ⟨server, hs, rfl⟩ := hs
    obtain ⟨-, rfl⟩ := workerStart_eq hs
    exact hsame hclosed rfl
  | recv k fails =>
    obtain ⟨w, r, sock, hw, hrun, hnone, hreceived, rfl⟩ := recv_eq hs
    exact hsame hclosed rfl
  | act k =>
    obtain ⟨w, r, printed, hback, hacted, -, -⟩ := hkept.acting hs
    generalize s'.server = server at hacted hclosed
    cases hacted with
    | data | error => exact absurd hclosed hopen
    | eof =>
      by_cases he : fd = w.sockfd
      · exact he ▸ hback
      · simp only [Function.update_of_ne he] at hclosed
        exact absurd hclosed hopen
    | again =>
      by_cases he : fd = w.sockfd
      · subst he
        simp only [Function.update_self, Option.map_eq_none_iff] at hclosed
        exact absurd hclosed hopen
      · simp only [Function.update_of_ne he] at hclosed
        exact absurd hclosed hopen

/-- A client shuts down while the worker reads. -/
theorem closed_when_read_shutdown : ∃ s s' : System, s'.server.armed 5 = none ∧ s.socket 5 = ⟨[], true⟩ := by
  let s := (play (fun s i => Legal s i ∧ Orderly s i) System.turn start [.epollWait [(3, true)],
    .handle (some (5, ⟨[97], false⟩)), .handle none, .epollWait [(5, true)], .handle none, .workerStart 0,
    .recv 0 false, .shutdown 5, .act 0, .recv 0 false]).get (by decide)
  let s' := (s.turn (.act 0)).get (by decide)
  have h : Reach Init (fun s i => Legal s i ∧ Orderly s i) System.turn s :=
    reach_of_play init_start (Option.some_get _).symm
  have hclosed : s'.server.armed 5 = none := by decide
  have hopen : s.server.armed 5 ≠ none := by decide
  exact ⟨s, s', hclosed,
    closed_when_read (i := .act 0) h (by decide) (Option.some_get _).symm hopen hclosed⟩

end System

end LinuxServer.Oneshot
