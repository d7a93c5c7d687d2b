import LinuxServer.Flow
import LinuxServer.LevelEdge

/-!
# The server of `9-3_LT_ET.cpp`

The main loop with many clients, and with input that arrives between any two steps, also
between two rounds of the loop of `et`.  `enableEt` says which of the two readers `main`
calls.  Events without `EPOLLIN` only print, and are left out.  `recv` does not fail on an
open socket.  `main` never calls `listen`, and what is said is about connections that are
accepted all the same.
-/

namespace LinuxServer.LevelEdge
open CString

/-- Where the server is: in `epoll_wait`, in the `for` loop of a reader with the events still
to handle, or in the `while` loop of `et`. -/
inductive Pc
  | wait
  | batch (events : List ℤ)
  | reading (fd : ℤ) (events : List ℤ)
  deriving DecidableEq, Repr

/-- The events that are not handled to their end. -/
def Pc.events : Pc → List ℤ
  | .wait => []
  | .batch events => events
  | .reading fd events => fd :: events

/-- The kernel with the arrivals that have not been reported, and where the server is. -/
structure System where
  kernel : Kernel
  listenEdge : Bool
  edge : ℤ → Bool
  pc : Pc

inductive Input
  | connect (connfd : ℤ) (s : Socket)
  | arrive (fd : ℤ) (bytes : List UInt8)
  | shutdown (fd : ℤ)
  | epollWait (ready : List ℤ)
  | next
  | read
  deriving DecidableEq, Repr

/-- One round of the loop of `et`, and whether it ends with `break`. -/
def etRound (fd : ℤ) (k : Kernel) : Bool × Kernel :=
  match k.recv fd (bufferSize - 1) with
  | (.again, k) => (true, k)
  | (.error, k) => (true, k.close fd)
  | (.eof, k) => (false, k.close fd)
  | (.data bytes, k) => (false, k.printf bytes)

theorem etLoop_succ (fd : ℤ) (fuel : ℕ) (k : Kernel) : etLoop fd (fuel + 1) k =
    if (etRound fd k).1 then some (etRound fd k).2 else etLoop fd fuel (etRound fd k).2 := by
  rw [etLoop, etRound]
  cases k.recv fd (bufferSize - 1) with
  | mk result k => cases result <;> rfl

namespace System

/-- Something happens to the socket of a client. -/
def change (s : System) (fd : ℤ) (f : Socket → Socket) : Option System :=
  match s.kernel.sockets fd with
  | some sock =>
    if sock.shut then none else some { s with
      kernel := { s.kernel with sockets := Function.update s.kernel.sockets fd (some (f sock)) }
      edge := Function.update s.edge fd true }
  | none => none

/-- The branch of the listening socket.  A socket with input is reported once it is added. -/
def accept (enableEt : Bool) (s : System) : System :=
  { s with
    kernel := s.kernel.accept enableEt
    edge := match s.kernel.backlog with
      | [] => s.edge
      | (connfd, _) :: _ => Function.update s.edge connfd ((s.kernel.accept enableEt).readable connfd) }

/-- What `epoll_wait` may return. -/
def reportable (listenfd : ℤ) (s : System) (fd : ℤ) : Bool :=
  if fd = listenfd then s.listenEdge
  else match s.kernel.interest fd with
    | some true => s.edge fd
    | some false => s.kernel.readable fd
    | none => false

end System

def turn (enableEt : Bool) (listenfd : ℤ) (s : System) : Input → Option System
  | .connect connfd sock => some { s with
      kernel := { s.kernel with backlog := s.kernel.backlog ++ [(connfd, sock)] }
      listenEdge := true }
  | .arrive fd bytes => s.change fd fun sock => { sock with queue := sock.queue ++ bytes }
  | .shutdown fd => s.change fd fun sock => { sock with shut := true }
  | .epollWait ready =>
    match s.pc with
    | .wait => some { s with
        listenEdge := s.listenEdge && decide (listenfd ∉ ready)
        edge := fun fd => s.edge fd && decide (fd ∉ ready)
        pc := .batch ready }
    | _ => none
  | .next =>
    match s.pc with
    | .batch [] => some { s with pc := .wait }
    | .batch (fd :: rest) =>
      if fd = listenfd then some { s.accept enableEt with pc := .batch rest }
      else if enableEt then some { s with pc := .reading fd rest }
      else some { s with kernel := ltEvent listenfd s.kernel (fd, true), pc := .batch rest }
    | _ => none
  | .read =>
    match s.pc with
    | .reading fd rest => some { s with
        kernel := (etRound fd s.kernel).2
        pc := if (etRound fd s.kernel).1 then .batch rest else .reading fd rest }
    | _ => none

/-- No client yet, and the listening socket is in the event table. -/
def Init (listenfd : ℤ) (s : System) : Prop :=
  s.kernel.sockets = (fun _ => none) ∧ s.kernel.backlog = [] ∧
    s.kernel.interest = Function.update (fun _ => none) listenfd (some true) ∧ s.pc = .wait

/-- The server in front of its loop. -/
def start (listenfd : ℤ) : System where
  kernel :=
    { sockets := fun _ => none
      backlog := []
      interest := Function.update (fun _ => none) listenfd (some true)
      calls := [] }
  listenEdge := false
  edge _ := false
  pc := .wait

theorem init_start (listenfd : ℤ) : Init listenfd (start listenfd) := ⟨rfl, rfl, rfl, rfl⟩

/-- What the system promises: `epoll_wait` returns what is reportable, once each, and
`accept` returns a descriptor that is not open. -/
def Legal (listenfd : ℤ) (s : System) : Input → Prop
  | .connect connfd _ => connfd ≠ listenfd
  | .epollWait ready => ready.Nodup ∧ ∀ fd ∈ ready, s.reportable listenfd fd = true
  | .next => s.pc.events.head? = some listenfd → ∀ c ∈ s.kernel.backlog.head?, s.kernel.sockets c.1 = none
  | _ => True

instance (listenfd : ℤ) (s : System) : (i : Input) → Decidable (Legal listenfd s i)
  | .connect _ _ => inferInstanceAs (Decidable (_ ≠ _))
  | .epollWait _ => inferInstanceAs (Decidable (_ ∧ ∀ fd ∈ _, _))
  | .next => inferInstanceAs (Decidable (_ → ∀ c ∈ _, _))
  | .arrive _ _ => isTrue trivial
  | .shutdown _ => isTrue trivial
  | .read => isTrue trivial

variable {m : Bool} {listenfd fd : ℤ} {s s' : System} {k : Kernel} {i : Input}

/-! ## What a step does -/

/-- What reading from a client once does to the kernel: bytes are taken and printed, there
are none, or the socket is closed. -/
inductive Read (fd : ℤ) (k : Kernel) : Kernel → Prop
  | data (sock : Socket) (hopen : k.sockets fd = some sock) (hq : sock.queue ≠ []) :
      Read fd k (({ k with
        sockets := Function.update k.sockets fd (some { sock with queue := sock.queue.drop (bufferSize - 1) })
        calls := k.calls ++ [.recv fd (.data (sock.queue.take (bufferSize - 1)))] } : Kernel).printf
          (sock.queue.take (bufferSize - 1)))
  | again (hopen : k.sockets fd = some ⟨[], false⟩) :
      Read fd k { k with calls := k.calls ++ [.recv fd .again] }
  | close (result : RecvResult) (hr : ∀ bytes, result ≠ .data bytes)
      (hend : k.sockets fd = some ⟨[], true⟩ ∨ k.sockets fd = none) :
      Read fd k (({ k with calls := k.calls ++ [.recv fd result] } : Kernel).close fd)

theorem recv_spec (fd : ℤ) (k : Kernel) :
    (∃ sock, k.sockets fd = some sock ∧ sock.queue ≠ [] ∧ k.recv fd (bufferSize - 1) =
      (.data (sock.queue.take (bufferSize - 1)), { k with
        sockets := Function.update k.sockets fd (some { sock with queue := sock.queue.drop (bufferSize - 1) })
        calls := k.calls ++ [.recv fd (.data (sock.queue.take (bufferSize - 1)))] })) ∨
    (k.sockets fd = some ⟨[], true⟩ ∧
      k.recv fd (bufferSize - 1) = (.eof, { k with calls := k.calls ++ [.recv fd .eof] })) ∨
    (k.sockets fd = some ⟨[], false⟩ ∧
      k.recv fd (bufferSize - 1) = (.again, { k with calls := k.calls ++ [.recv fd .again] })) ∨
    (k.sockets fd = none ∧
      k.recv fd (bufferSize - 1) = (.error, { k with calls := k.calls ++ [.recv fd .error] })) := by
  cases h : k.sockets fd with
  | none => exact .inr (.inr (.inr ⟨rfl, recv_closed h _⟩))
  | some sock =>
    obtain ⟨q, shut⟩ := sock
    have hrecv := recv_open h (bufferSize - 1)
    by_cases hq : q = []
    · subst hq
      have hsame : Function.update k.sockets fd (some (⟨[], shut⟩ : Socket)) = k.sockets := by
        rw [← h]
        exact Function.update_eq_self fd k.sockets
      cases shut with
      | true => exact .inr (.inl ⟨rfl, by rw [hrecv]; simp [Socket.recv, hsame]⟩)
      | false => exact .inr (.inr (.inl ⟨rfl, by rw [hrecv]; simp [Socket.recv, hsame]⟩))
    · exact .inl ⟨⟨q, shut⟩, rfl, hq, by rw [hrecv]; simp [Socket.recv, hq]⟩

theorem ltEvent_read (hfd : fd ≠ listenfd) (hread : k.readable fd = true) :
    Read fd k (ltEvent listenfd k (fd, true)) := by
  simp only [ltEvent, if_neg hfd, if_true]
  rcases recv_spec fd k with ⟨sock, hs, hq, he⟩ | ⟨hs, he⟩ | ⟨hs, he⟩ | ⟨hs, he⟩
  · rw [he]
    exact .data sock hs hq
  · rw [he]
    exact .close .eof (by simp) (.inl hs)
  · simp [Kernel.readable, hs] at hread
  · simp [Kernel.readable, hs] at hread

/-- The loop of `et` ends when nothing is left to read. -/
theorem etRound_read (fd : ℤ) (k : Kernel) : Read fd k (etRound fd k).2 ∧
    ((etRound fd k).1 = true → (etRound fd k).2.readable fd = false) := by
  unfold etRound
  rcases recv_spec fd k with ⟨sock, hs, hq, he⟩ | ⟨hs, he⟩ | ⟨hs, he⟩ | ⟨hs, he⟩
  · rw [he]
    exact ⟨.data sock hs hq, by simp⟩
  · rw [he]
    exact ⟨.close .eof (by simp) (.inl hs), by simp⟩
  · rw [he]
    exact ⟨.again hs, fun _ => by simp [Kernel.readable, hs]⟩
  · rw [he]
    exact ⟨.close .error (by simp) (.inr hs), fun _ => by simp [Kernel.readable, Kernel.close]⟩

theorem pieces_snoc {c : Call} {calls : List Call} (h : c.piece fd = none) :
    pieces fd (calls ++ [c]) = pieces fd calls := by
  rw [pieces_append]
  simp [pieces, h]

theorem pieces_data {fd' : ℤ} {bytes : List UInt8} {calls : List Call} :
    pieces fd (calls ++ [.recv fd' (.data bytes)]) = pieces fd calls ++ if fd' = fd then [bytes] else [] := by
  rw [pieces_append]
  by_cases hfd : fd' = fd <;> simp [pieces, Call.piece, hfd]

/-- The bytes received from `fd`, and the bytes that wait there. -/
def Kernel.line (fd : ℤ) (k : Kernel) : List UInt8 :=
  (pieces fd k.calls).flatten ++ (k.sockets fd).elim [] Socket.queue

namespace Read

variable {k' : Kernel} {fd' : ℤ}

theorem sockets_of_ne (h : Read fd k k') (hne : fd' ≠ fd) : k'.sockets fd' = k.sockets fd' := by
  cases h <;> simp [Kernel.printf, Kernel.close, hne]

theorem backlog (h : Read fd k k') : k'.backlog = k.backlog := by
  cases h <;> rfl

/-- A socket leaves the event table when it is closed. -/
theorem interest (h : Read fd k k') : k'.interest = k.interest ∧ (k'.sockets fd).isSome = (k.sockets fd).isSome ∨
    k'.interest = Function.update k.interest fd none ∧ k'.sockets fd = none := by
  cases h with
  | data sock hopen hq => exact .inl ⟨rfl, by simp [Kernel.printf, hopen]⟩
  | again hopen => exact .inl ⟨rfl, rfl⟩
  | close result hr hend => exact .inr ⟨rfl, by simp [Kernel.close]⟩

/-- What is read is what was in front of the queue. -/
theorem line (h : Read fd k k') : k'.line fd' = k.line fd' := by
  unfold Kernel.line
  cases h with
  | data sock hopen hq =>
    rw [Kernel.printf, pieces_snoc (c := .printf _ _) rfl]
    by_cases hfd : fd' = fd
    · subst hfd
      rw [pieces_data, if_pos rfl]
      simp [hopen]
    · rw [pieces_data, if_neg (Ne.symm hfd)]
      simp [hfd]
  | again hopen => rw [pieces_snoc (c := .recv _ .again) rfl]
  | close result hr hend =>
    have hnone : Call.piece fd' (.recv fd result) = none := by
      cases result with
      | data bytes => exact absurd rfl (hr bytes)
      | eof | again | error => rfl
    rw [Kernel.close, pieces_snoc (c := .close _) rfl, pieces_snoc hnone]
    by_cases hfd : fd' = fd
    · subst hfd
      rcases hend with hend | hend <;> simp [hend]
    · simp [hfd]

/-- Only a socket that is read to its end and shut down by the peer is closed. -/
theorem closed {sock : Socket} (h : Read fd k k') (hs : k.sockets fd' = some sock)
    (hn : k'.sockets fd' = none) : sock = ⟨[], true⟩ := by
  by_cases hfd : fd' = fd
  · subst hfd
    cases h with
    | data sock' hopen hq => simp [Kernel.printf] at hn
    | again hopen => cases hs.symm.trans hn
    | close result hr hend =>
      rcases hend with hend | hend
      · exact Option.some.inj (hs.symm.trans hend)
      · cases hs.symm.trans hend
  · rw [h.sockets_of_ne hfd] at hn
    cases hs.symm.trans hn

end Read

/-- What a step of the server does. -/
inductive Turned (m : Bool) (listenfd : ℤ) (s : System) : Input → System → Prop
  | connect (connfd : ℤ) (sock : Socket) : Turned m listenfd s (.connect connfd sock) { s with
      kernel := { s.kernel with backlog := s.kernel.backlog ++ [(connfd, sock)] }
      listenEdge := true }
  | arrive (fd : ℤ) (bytes : List UInt8) (sock : Socket) (hs : s.kernel.sockets fd = some sock) :
      Turned m listenfd s (.arrive fd bytes) { s with
        kernel := { s.kernel with
          sockets := Function.update s.kernel.sockets fd (some { sock with queue := sock.queue ++ bytes }) }
        edge := Function.update s.edge fd true }
  | shutdown (fd : ℤ) (sock : Socket) (hs : s.kernel.sockets fd = some sock) :
      Turned m listenfd s (.shutdown fd) { s with
        kernel := { s.kernel with
          sockets := Function.update s.kernel.sockets fd (some { sock with shut := true }) }
        edge := Function.update s.edge fd true }
  | epollWait (ready : List ℤ) (hpc : s.pc = .wait) : Turned m listenfd s (.epollWait ready) { s with
      listenEdge := s.listenEdge && decide (listenfd ∉ ready)
      edge := fun fd => s.edge fd && decide (fd ∉ ready)
      pc := .batch ready }
  | done (hpc : s.pc = .batch []) : Turned m listenfd s .next { s with pc := .wait }
  | accept (rest : List ℤ) (hpc : s.pc = .batch (listenfd :: rest)) :
      Turned m listenfd s .next { s.accept m with pc := .batch rest }
  | level (fd : ℤ) (rest : List ℤ) (hpc : s.pc = .batch (fd :: rest)) (hfd : fd ≠ listenfd) (hm : m = false) :
      Turned m listenfd s .next { s with kernel := ltEvent listenfd s.kernel (fd, true), pc := .batch rest }
  | edge (fd : ℤ) (rest : List ℤ) (hpc : s.pc = .batch (fd :: rest)) (hfd : fd ≠ listenfd) (hm : m = true) :
      Turned m listenfd s .next { s with pc := .reading fd rest }
  | read (fd : ℤ) (rest : List ℤ) (hpc : s.pc = .reading fd rest) : Turned m listenfd s .read { s with
      kernel := (etRound fd s.kernel).2
      pc := if (etRound fd s.kernel).1 then .batch rest else .reading fd rest }

theorem change_eq {f : Socket → Socket} (h : s.change fd f = some s') :
    ∃ sock, s.kernel.sockets fd = some sock ∧ s' = { s with
      kernel := { s.kernel with sockets := Function.update s.kernel.sockets fd (some (f sock)) }
      edge := Function.update s.edge fd true } := by
  unfold System.change at h
  split at h
  next sock hs =>
    split at h
    next => cases h
    next => exact ⟨sock, hs, (Option.some.inj h).symm⟩
  next => cases h

theorem turned (h : turn m listenfd s i = some s') : Turned m listenfd s i s' := by
  cases i with
  | connect connfd sock =>
    obtain rfl := Option.some.inj h
    exact .connect connfd sock
  | arrive fd bytes =>
    obtain ⟨sock, hs, rfl⟩ := change_eq h
    exact .arrive fd bytes sock hs
  | shutdown fd =>
    obtain ⟨sock, hs, rfl⟩ := change_eq h
    exact .shutdown fd sock hs
  | epollWait ready =>
    simp only [turn] at h
    split at h
    next hpc =>
      obtain rfl := Option.some.inj h
      exact .epollWait ready hpc
    next => cases h
  | next =>
    simp only [turn] at h
    split at h
    next hpc =>
      obtain rfl := Option.some.inj h
      exact .done hpc
    next fd rest hpc =>
      by_cases hfd : fd = listenfd
      · subst hfd
        rw [if_pos rfl] at h
        obtain rfl := Option.some.inj h
        exact .accept rest hpc
      · rw [if_neg hfd] at h
        cases m with
        | true =>
          obtain rfl := Option.some.inj h
          exact .edge fd rest hpc hfd rfl
        | false =>
          obtain rfl := Option.some.inj h
          exact .level fd rest hpc hfd rfl
    next => cases h
  | read =>
    simp only [turn] at h
    split at h
    next fd rest hpc =>
      obtain rfl := Option.some.inj h
      exact .read fd rest hpc
    next => cases h

/-! ## What the server keeps -/

/-- The event table has the open sockets in the mode of the reader; the events are for
different descriptors; and nothing waits on a client of `et` without an event to come. -/
structure Kept (m : Bool) (listenfd : ℤ) (s : System) : Prop where
  table : ∀ fd ≠ listenfd, s.kernel.interest fd = if (s.kernel.sockets fd).isSome then some m else none
  listen : s.kernel.sockets listenfd = none
  backlog : ∀ c ∈ s.kernel.backlog, c.1 ≠ listenfd
  nodup : s.pc.events.Nodup
  reading : ∀ fd rest, s.pc = .reading fd rest → fd ≠ listenfd ∧ m = true
  level : m = false → ∀ fd ∈ s.pc.events, fd ≠ listenfd → s.kernel.readable fd = true
  edge : m = true → ∀ fd, s.kernel.readable fd = true → s.edge fd = true ∨ fd ∈ s.pc.events

theorem kept_init (h : Init listenfd s) : Kept m listenfd s := by
  obtain ⟨hs, hb, hi, hpc⟩ := h
  refine ⟨fun fd hfd => ?_, by rw [hs], by simp [hb], by simp [hpc, Pc.events], by simp [hpc], ?_, ?_⟩
  · simp [hs, hi, hfd]
  · simp [hpc, Pc.events]
  · simp [Kernel.readable, hs]

/-- Reading from a client keeps it. -/
theorem Kept.read {rest : List ℤ} (h : Kept m listenfd s) (hread : Read fd s.kernel k) (hfd : fd ≠ listenfd)
    (hpc : s.pc.events = fd :: rest) {pc : Pc} (hsub : pc.events.Sublist s.pc.events)
    (hleft : fd ∉ pc.events → m = true → k.readable fd = false) (hlevel : m = false → pc.events = rest)
    (hrest : ∀ fd' ∈ rest, fd' ∈ pc.events) (hreading : ∀ fd rest, pc = .reading fd rest → fd ≠ listenfd ∧ m = true) :
    Kept m listenfd { s with kernel := k, pc := pc } := by
  have hnd := h.nodup
  rw [hpc] at hnd
  have hsame : ∀ fd' ≠ fd, k.readable fd' = s.kernel.readable fd' := by
    intro fd' hne
    unfold Kernel.readable
    rw [hread.sockets_of_ne hne]
  refine ⟨fun fd' hne => ?_, ?_, by rw [hread.backlog]; exact h.backlog, h.nodup.sublist hsub,
    hreading, ?_, ?_⟩
  · have htable := h.table fd' hne
    rcases hread.interest with ⟨hi, hs⟩ | ⟨hi, hs⟩
    · by_cases he : fd' = fd
      · subst he
        rw [hi, hs]
        exact htable
      · rw [hi, hread.sockets_of_ne he]
        exact htable
    · by_cases he : fd' = fd
      · subst he
        simp [hi, hs]
      · rw [hi, Function.update_of_ne he, hread.sockets_of_ne he]
        exact htable
  · rw [hread.sockets_of_ne hfd.symm]
    exact h.listen
  · intro hm fd' hmem hne
    have hmem' : fd' ∈ rest := by
      rw [← hlevel hm]
      exact hmem
    have hne' : fd' ≠ fd := by
      rintro rfl
      exact (List.nodup_cons.mp hnd).1 hmem'
    rw [hsame fd' hne']
    exact h.level hm fd' (hpc ▸ List.mem_cons_of_mem _ hmem') hne
  · intro hm fd' hr
    by_cases he : fd' = fd
    · subst he
      right
      by_contra hno
      rw [hleft hno hm] at hr
      cases hr
    · rw [hsame fd' he] at hr
      refine (h.edge hm fd' hr).imp_right fun hmem => hrest fd' ?_
      rw [hpc] at hmem
      exact (List.mem_cons.mp hmem).resolve_left he

/-- So does anything that happens to an open socket. -/
theorem Kept.change {sock sock' : Socket} (h : Kept m listenfd s) (hs : s.kernel.sockets fd = some sock)
    (hread : sock'.queue ≠ [] ∨ sock'.shut = true ∨ s.kernel.readable fd = false) :
    Kept m listenfd { s with
      kernel := { s.kernel with sockets := Function.update s.kernel.sockets fd (some sock') }
      edge := Function.update s.edge fd true } := by
  have hfd : fd ≠ listenfd := by
    rintro rfl
    cases hs.symm.trans h.listen
  have hother : ∀ fd' ≠ fd, ({ s.kernel with
      sockets := Function.update s.kernel.sockets fd (some sock') } : Kernel).readable fd' =
        s.kernel.readable fd' := by
    intro fd' hne
    simp [Kernel.readable, hne]
  refine ⟨fun fd' hne => ?_, ?_, h.backlog, h.nodup, h.reading, fun hm fd' hmem hne => ?_, fun hm fd' hr => ?_⟩
  · by_cases he : fd' = fd
    · subst he
      simpa [hs] using h.table fd' hne
    · simpa [he] using h.table fd' hne
  · simpa [hfd.symm] using h.listen
  · by_cases he : fd' = fd
    · subst he
      rcases hread with hq | hq | hq
      · simp [Kernel.readable, hq]
      · simp [Kernel.readable, hq]
      · rw [h.level hm fd' hmem hne] at hq
        cases hq
    · rw [hother fd' he]
      exact h.level hm fd' hmem hne
  · by_cases he : fd' = fd
    · subst he
      exact .inl (Function.update_self ..)
    · rw [hother fd' he] at hr
      simpa [he] using h.edge hm fd' hr

theorem Kept.accept {rest : List ℤ} (h : Kept m listenfd s) (hpc : s.pc = .batch (listenfd :: rest))
    (hok : ∀ c ∈ s.kernel.backlog.head?, s.kernel.sockets c.1 = none) :
    Kept m listenfd { s.accept m with pc := .batch rest } := by
  have hnd : (listenfd :: rest).Nodup := by simpa [hpc, Pc.events] using h.nodup
  have hlevel : m = false → ∀ fd ∈ rest, fd ≠ listenfd → s.kernel.readable fd = true := by
    intro hm fd hmem
    exact h.level hm fd (by simp [hpc, Pc.events, hmem])
  have hedge : m = true → ∀ fd, s.kernel.readable fd = true → s.edge fd = true ∨ fd ∈ rest := by
    intro hm fd hr
    have hfd : fd ≠ listenfd := by
      rintro rfl
      simp [Kernel.readable, h.listen] at hr
    simpa [hpc, Pc.events, hfd] using h.edge hm fd hr
  cases hb : s.kernel.backlog with
  | nil =>
    have hk : s.kernel.accept m = s.kernel := by
      unfold Kernel.accept
      rw [hb]
    simp only [System.accept, hk, hb]
    exact ⟨h.table, h.listen, h.backlog, (List.nodup_cons.mp hnd).2, by simp, hlevel, hedge⟩
  | cons c backlog =>
    obtain ⟨connfd, sock⟩ := c
    have hnone : s.kernel.sockets connfd = none := hok (connfd, sock) (by simp [hb])
    have hne : connfd ≠ listenfd := h.backlog (connfd, sock) (by simp [hb])
    have hk : s.kernel.accept m = { s.kernel with
        sockets := Function.update s.kernel.sockets connfd (some sock)
        backlog := backlog
        interest := Function.update s.kernel.interest connfd (some m) } := by
      unfold Kernel.accept
      rw [hb]
    have hsame : ∀ fd ≠ connfd, (s.kernel.accept m).readable fd = s.kernel.readable fd := by
      intro fd hfd
      simp [hk, Kernel.readable, hfd]
    have hnot : ∀ fd, s.kernel.readable fd = true → fd ≠ connfd := by
      rintro fd hr rfl
      simp [Kernel.readable, hnone] at hr
    simp only [System.accept, hb]
    refine ⟨fun fd hfd => ?_, ?_, ?_, (List.nodup_cons.mp hnd).2, by simp, fun hm fd hmem hfd => ?_, fun hm fd hr => ?_⟩
    · by_cases he : fd = connfd
      · subst he
        simp [hk]
      · simpa [hk, he] using h.table fd hfd
    · simpa [hk, hne.symm] using h.listen
    · rw [hk]
      exact fun c hc => h.backlog c (by simp [hb, hc])
    · have hr := hlevel hm fd hmem hfd
      rw [hsame fd (hnot fd hr)]
      exact hr
    · by_cases he : fd = connfd
      · subst he
        exact .inl (by simpa using hr)
      · rw [hsame fd he] at hr
        simpa [he, Pc.events] using hedge hm fd hr

theorem Kept.turned (h : Kept m listenfd s) (hok : Legal listenfd s i) (ht : Turned m listenfd s i s') :
    Kept m listenfd s' := by
  cases ht with
  | connect connfd sock =>
    refine ⟨h.table, h.listen, fun c hc => ?_, h.nodup, h.reading, h.level, h.edge⟩
    rcases List.mem_append.mp hc with hc | hc
    · exact h.backlog c hc
    · rw [List.mem_singleton.mp hc]
      exact hok
  | arrive fd bytes sock hs =>
    refine h.change hs ?_
    by_cases hq : sock.queue = []
    · cases hshut : sock.shut with
      | true => exact .inr (.inl rfl)
      | false => exact .inr (.inr (by simp [Kernel.readable, hs, hq, hshut]))
    · exact .inl (by simp [hq])
  | shutdown fd sock hs => exact h.change hs (.inr (.inl rfl))
  | epollWait ready hpc =>
    obtain ⟨hnd, hready⟩ := hok
    refine ⟨h.table, h.listen, h.backlog, hnd, by simp, fun hm fd hmem hfd => ?_, fun hm fd hr => ?_⟩
    · have hrep := hready fd hmem
      rw [System.reportable, if_neg hfd, h.table fd hfd, hm] at hrep
      cases hs : s.kernel.sockets fd with
      | none => simp [hs] at hrep
      | some sock => simpa [hs] using hrep
    · have hedge : s.edge fd = true := by simpa [hpc, Pc.events] using h.edge hm fd hr
      by_cases hmem : fd ∈ ready
      · exact .inr hmem
      · exact .inl (by simp [hedge, hmem])
  | done hpc =>
    have hedge := h.edge
    rw [hpc] at hedge
    exact ⟨h.table, h.listen, h.backlog, List.nodup_nil, by simp, by simp [Pc.events], hedge⟩
  | accept rest hpc => exact h.accept hpc (hok (by simp [hpc, Pc.events]))
  | level fd rest hpc hfd hm =>
    have hread := ltEvent_read hfd (h.level hm fd (by simp [hpc, Pc.events]) hfd)
    refine h.read hread hfd (by rw [hpc]; rfl) ?_ (by simp [hm]) (fun _ => rfl) (fun _ => id) (by simp)
    rw [hpc]
    exact List.sublist_cons_self _ _
  | edge fd rest hpc hfd hm =>
    have hnd := h.nodup
    have hedge := h.edge
    rw [hpc] at hnd hedge
    exact ⟨h.table, h.listen, h.backlog, hnd, fun fd' rest' he => by cases he; exact ⟨hfd, hm⟩, by simp [hm], hedge⟩
  | read fd rest hpc =>
    obtain ⟨hfd, hm⟩ := h.reading fd rest hpc
    obtain ⟨hread, hend⟩ := etRound_read fd s.kernel
    have hevents : s.pc.events = fd :: rest := by rw [hpc]; rfl
    cases hbreak : (etRound fd s.kernel).1 with
    | true =>
      refine h.read hread hfd hevents ?_ (fun _ _ => hend hbreak) (by simp [hm]) (fun _ => id) (by simp)
      rw [hevents]
      exact List.sublist_cons_self _ _
    | false =>
      refine h.read hread hfd hevents ?_ (fun hno => ?_) (by simp [hm]) (fun _ => List.mem_cons_of_mem _) ?_
      · rw [hevents]
        exact List.Sublist.refl _
      · exact absurd List.mem_cons_self hno
      · rintro fd' rest' ⟨⟩
        exact ⟨hfd, hm⟩

theorem kept_reach (h : Reach (Init listenfd) (Legal listenfd) (turn m listenfd) s) : Kept m listenfd s :=
  h.invariant (I := Kept m listenfd) (fun _ hi => kept_init hi)
    fun _ _ _ hi hok hstep => hi.turned hok (turned hstep)

/-- Whatever a step does to a client is done by reading from it. -/
theorem Turned.sockets {sock : Socket} (h : Kept m listenfd s) (hok : Legal listenfd s i)
    (ht : Turned m listenfd s i s') (hs : s.kernel.sockets fd = some sock) :
    (∃ sock', s'.kernel.sockets fd = some sock') ∨ ∃ fd', Read fd' s.kernel s'.kernel := by
  cases ht with
  | connect | epollWait | done | edge => exact .inl ⟨sock, hs⟩
  | arrive fd' bytes sock' hs' | shutdown fd' sock' hs' =>
    by_cases he : fd = fd'
    · subst he
      exact .inl ⟨_, Function.update_self ..⟩
    · exact .inl ⟨sock, by simpa [he] using hs⟩
  | accept rest hpc =>
    left
    simp only [System.accept, Kernel.accept]
    split
    next => exact ⟨sock, hs⟩
    next connfd sock' backlog hb =>
      have hnone : s.kernel.sockets connfd = none := hok (by simp [hpc, Pc.events]) (connfd, sock') (by simp [hb])
      have he : fd ≠ connfd := by
        rintro rfl
        cases hs.symm.trans hnone
      exact ⟨sock, by simpa [he] using hs⟩
  | level fd' rest hpc hfd hm =>
    exact .inr ⟨fd', ltEvent_read hfd (h.level hm fd' (by simp [hpc, Pc.events]) hfd)⟩
  | read fd' rest hpc => exact .inr ⟨fd', (etRound_read fd' s.kernel).1⟩

/-- In every run, with either reader, the server closes a client only after it has read all
that the client sent, and the client has shut down. -/
theorem closed_at_end {sock : Socket} (h : Reach (Init listenfd) (Legal listenfd) (turn m listenfd) s)
    (hok : Legal listenfd s i) (hstep : turn m listenfd s i = some s')
    (hs : s.kernel.sockets fd = some sock) (hn : s'.kernel.sockets fd = none) : sock = ⟨[], true⟩ := by
  rcases (turned hstep).sockets (kept_reach h) hok hs with ⟨sock', hs'⟩ | ⟨fd', hread⟩
  · cases hs'.symm.trans hn
  · exact hread.closed hs hn

/-- `lt` closes a client that has shut down after its byte was read. -/
theorem closed_at_end_lt : ∃ s s' : System, s'.kernel.sockets 5 = none ∧
    ∀ sock, s.kernel.sockets 5 = some sock → sock = ⟨[], true⟩ := by
  let s := (play (Legal 3) (turn false 3) (start 3) [.connect 5 ⟨[1], false⟩, .epollWait [3], .next, .next,
    .epollWait [5], .next, .next, .shutdown 5, .epollWait [5]]).get (by decide)
  let s' := (turn false 3 s .next).get (by decide)
  have h : Reach (Init 3) (Legal 3) (turn false 3) s :=
    reach_of_play (init_start 3) (Option.some_get _).symm
  have hn : s'.kernel.sockets 5 = none := by decide
  exact ⟨s, s', hn, fun sock hs => closed_at_end (i := .next) h (by decide) (Option.some_get _).symm hs hn⟩

/-- In every run with `et`, whenever the server waits, a client on which something is left to
read is about to be reported. -/
theorem et_leaves_nothing (h : Reach (Init listenfd) (Legal listenfd) (turn true listenfd) s)
    (hpc : s.pc = .wait) (hread : s.kernel.readable fd = true) : s.reportable listenfd fd = true := by
  have hk := kept_reach h
  have hfd : fd ≠ listenfd := by
    rintro rfl
    simp [Kernel.readable, hk.listen] at hread
  have hedge : s.edge fd = true := by simpa [hpc, Pc.events] using hk.edge rfl fd hread
  cases hs : s.kernel.sockets fd with
  | none => simp [Kernel.readable, hs] at hread
  | some sock => simpa [System.reportable, hfd, hk.table fd hfd, hs] using hedge

/-- A byte comes after the loop of `et`. -/
theorem et_leaves_nothing_late : ∃ s : System, s.pc = .wait ∧ s.kernel.readable 5 = true ∧
    s.reportable 3 5 = true := by
  let s := (play (Legal 3) (turn true 3) (start 3) [.connect 5 ⟨[1], false⟩, .epollWait [3], .next, .next,
    .epollWait [5], .next, .read, .read, .arrive 5 [2], .next]).get (by decide)
  have h : Reach (Init 3) (Legal 3) (turn true 3) s :=
    reach_of_play (init_start 3) (Option.some_get _).symm
  have hpc : s.pc = .wait := by decide
  have hread : s.kernel.readable 5 = true := by decide
  exact ⟨s, hpc, hread, et_leaves_nothing h hpc hread⟩

/-- The bytes that come in on `fd`: from the arrivals, and from a new connection. -/
def arrived (listenfd fd : ℤ) (s : System) : Input → List UInt8
  | .arrive fd' bytes => if fd' = fd then bytes else []
  | .next =>
    if s.pc.events.head? = some listenfd then
      s.kernel.backlog.head?.elim [] fun c => if c.1 = fd then c.2.queue else []
    else []
  | _ => []

theorem turned_line (h : Kept m listenfd s) (hok : Legal listenfd s i) (ht : Turned m listenfd s i s') :
    s'.kernel.line fd = s.kernel.line fd ++ arrived listenfd fd s i := by
  cases ht with
  | connect | epollWait => exact (List.append_nil _).symm
  | done hpc => simp [arrived, hpc, Pc.events]
  | edge fd' rest hpc hfd hm => simp [arrived, hpc, Pc.events, hfd]
  | arrive fd' bytes sock hs =>
    by_cases he : fd = fd'
    · subst he
      simp [Kernel.line, arrived, hs]
    · simp [Kernel.line, arrived, he, Ne.symm he]
  | shutdown fd' sock hs =>
    by_cases he : fd = fd'
    · subst he
      simp [Kernel.line, arrived, hs]
    · simp [Kernel.line, arrived, he]
  | accept rest hpc =>
    cases hb : s.kernel.backlog with
    | nil => simp [Kernel.line, arrived, hpc, Pc.events, System.accept, Kernel.accept, hb]
    | cons c backlog =>
      have hnone : s.kernel.sockets c.1 = none := hok (by simp [hpc, Pc.events]) c (by simp [hb])
      by_cases he : fd = c.1
      · subst he
        simp [Kernel.line, arrived, hpc, Pc.events, System.accept, Kernel.accept, hb, hnone]
      · simp [Kernel.line, arrived, hpc, Pc.events, System.accept, Kernel.accept, hb, he, Ne.symm he]
  | level fd' rest hpc hfd hm =>
    have hread := ltEvent_read hfd (h.level hm fd' (by simp [hpc, Pc.events]) hfd)
    rw [hread.line]
    simp [arrived, hpc, Pc.events, hfd]
  | read fd' rest hpc =>
    rw [(etRound_read fd' s.kernel).1.line]
    exact (List.append_nil _).symm

/-- In every run, with either reader, the bytes received from a descriptor and those that
still wait there are all that has come in, in order and once each. -/
theorem read_in_order {es : List Input} (h : Reach (Init listenfd) (Legal listenfd) (turn m listenfd) s)
    (hrun : Exec (Legal listenfd) (turn m listenfd) s es s') :
    s'.kernel.line fd = s.kernel.line fd ++ brought (turn m listenfd) (arrived listenfd fd) s es :=
  hrun.brings (fun s => s.kernel.line fd) (I := Kept m listenfd)
    (fun _ _ _ hi hok hstep => hi.turned hok (turned hstep))
    (fun _ _ _ hi hok hstep => turned_line hi hok (turned hstep)) (kept_reach h)

/-- A byte comes between two rounds of the loop of `et`. -/
theorem read_in_order_between : ∃ s : System, s.kernel.line 5 = [1, 2] := by
  let es : List Input := [.connect 5 ⟨[1], false⟩, .epollWait [3], .next, .next, .epollWait [5], .next, .read,
    .arrive 5 [2], .read]
  let s := (play (Legal 3) (turn true 3) (start 3) es).get (by decide)
  have hrun : Exec (Legal 3) (turn true 3) (start 3) es s := exec_of_play (Option.some_get _).symm
  have h : s.kernel.line 5 = _ := read_in_order (.start (init_start 3)) hrun
  exact ⟨s, h⟩

end LinuxServer.LevelEdge
