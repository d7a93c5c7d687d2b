import LinuxServer.Runs
import LinuxServer.CString

/-!
# The chat server of `9-6_communication_server.cpp`

One process polls the listening socket and its clients.  What a client sends goes into
its `buf`, and every other client gets a pointer to that buffer and waits for its
socket to become writable.

A step is a call of `poll` or one iteration of the loop over `fds`, with the results
of its system calls.  A `char*` into `users` is the index of the entry whose `buf` it
points to.  `send` transmits the string that it is given; where it fails the assertion
after it ends the process, as a failing `poll` does.  Reading a buffer without a
terminating NUL makes the result `none`.

The server does not see the last three fields of its state.  They number the
connections, so that a descriptor used twice stands for two of them, and record what
is received and sent.
-/

namespace LinuxServer.PollChat
open CString

/-- `USER_LIMIT`. -/
def userLimit : ℤ := 5
/-- `BUFFER_SIZE`. -/
def bufferSize : ℕ := 64
/-- `FD_LIMIT`. -/
def fdLimit : ℤ := 65535

/-- The type `short` of `events` and `revents`. -/
abbrev Flags := BitVec 16

def pollin : Flags := 0x0001
def pollout : Flags := 0x0004
def pollerr : Flags := 0x0008
def pollhup : Flags := 0x0010
def pollnval : Flags := 0x0020
def pollrdhup : Flags := 0x2000

/-- `flags & flag` as a condition. -/
def has (flags flag : Flags) : Bool := flags &&& flag ≠ 0

/-- `struct pollfd`. -/
structure PollFd where
  fd : ℤ
  events : Flags
  revents : Flags
  deriving DecidableEq, Repr

/-- `struct client_data`, without the address, which nothing reads. -/
structure ClientData where
  writeBuf : Option ℤ
  buf : List UInt8
  deriving DecidableEq, Repr

/-- Where the process is: in front of `poll`, or in front of the test of the `for` loop. -/
inductive Phase
  | poll
  | scan (i : ℤ)
  deriving DecidableEq, Repr

/-- A message received from a connection, an execution of the `POLLOUT` branch for one,
a string sent to one. -/
inductive Record
  | received (conn : ℕ) (msg : List UInt8)
  | writable (conn : ℕ)
  | sent (conn : ℕ) (msg : List UInt8)
  deriving DecidableEq, Repr

structure Server where
  sockfd : ℤ
  fds : ℤ → PollFd
  userCount : ℤ
  users : ℤ → ClientData
  phase : Phase
  conn : ℤ → ℕ
  joined : ℕ
  log : List Record

/-- How `recv` ends: with data, at the end of the file, with `EAGAIN`, with another error. -/
inductive RecvResult
  | data (msg : List UInt8)
  | eof
  | again
  | error
  deriving DecidableEq, Repr

/-- `poll` with what it reports for each entry; an iteration with the results of
`accept` and `recv`, for the branches that call them. -/
inductive Event
  | poll (revents : ℤ → Flags)
  | examine (accepted : Option ℤ) (received : RecvResult)

/-- The branches of the loop body. -/
inductive Branch
  | accept
  | error
  | departure
  | read
  | write
  | idle
  deriving DecidableEq, Repr

namespace Server

/-- The entries `fds[1..user_count]`. -/
def entries (s : Server) : List PollFd :=
  (List.range s.userCount.toNat).map fun k : ℕ => s.fds (k + 1)

/-- What `poll` can report for an entry. -/
def reportable (p : PollFd) : Flags := p.events ||| pollerr ||| pollhup ||| pollnval

/-- `poll`: it reports whatever it is asked for, and errors unasked. -/
def poll (revents : ℤ → Flags) (s : Server) : Server :=
  { s with
    fds := fun i =>
      if 0 ≤ i ∧ i ≤ s.userCount then
        { s.fds i with revents := revents i &&& reportable (s.fds i) }
      else s.fds i
    phase := .scan 0 }

/-- The conditions of the loop body, in the order of the source. -/
def branch (s : Server) (i : ℤ) : Branch :=
  let p := s.fds i
  if p.fd = s.sockfd ∧ has p.revents pollin then .accept
  else if has p.revents pollerr then .error
  else if has p.revents pollrdhup then .departure
  else if has p.revents pollin then .read
  else if has p.revents pollout then .write
  else .idle

/-- A new connection. -/
def join (connfd : ℤ) (s : Server) : Server :=
  { s with
    userCount := s.userCount + 1
    fds := Function.update s.fds (s.userCount + 1) ⟨connfd, pollin ||| pollrdhup ||| pollerr, 0⟩
    conn := Function.update s.conn connfd s.joined
    joined := s.joined + 1 }

/-- The branch of the listening socket; one client too many is told so and closed. -/
def accept (accepted : Option ℤ) (s : Server) : Server :=
  match accepted with
  | none => s
  | some connfd => if userLimit ≤ s.userCount then s else s.join connfd

/-- What both branches that close a client do to the tables. -/
def depart (i : ℤ) (s : Server) : Server :=
  { s with
    users := Function.update s.users (s.fds i).fd (s.users (s.fds s.userCount).fd)
    fds := Function.update s.fds i (s.fds s.userCount)
    userCount := s.userCount - 1 }

/-- Store bytes in the `buf` of a client. -/
def setBuf (fd : ℤ) (buf : List UInt8) (s : Server) : Server :=
  { s with users := Function.update s.users fd { s.users fd with buf := buf } }

/-- `recv` with data for a client, into a buffer of NULs. -/
def receive (fd : ℤ) (msg : List UInt8) (s : Server) : Server :=
  { s.setBuf fd (msg ++ List.replicate (bufferSize - msg.length) 0) with
    log := s.log ++ [.received (s.conn fd) msg] }

/-- The body of the loop that tells the others about data from `connfd`. -/
def notify (connfd j : ℤ) (s : Server) : Server :=
  let p := s.fds j
  if p.fd = connfd then s
  else
    { s with
      fds := Function.update s.fds j { p with events := p.events ||| ~~~pollin ||| pollout }
      users := Function.update s.users p.fd { s.users p.fd with writeBuf := some connfd } }

/-- That loop, for `n` entries from `j` on. -/
def notifyLoop (connfd : ℤ) : ℕ → ℤ → Server → Server
  | 0, _, s => s
  | n + 1, j, s => notifyLoop connfd n (j + 1) (notify connfd j s)

/-- The branch for readable clients. -/
def read (received : RecvResult) (i : ℤ) (s : Server) : Server :=
  let connfd := (s.fds i).fd
  let s := s.setBuf connfd (List.replicate bufferSize 0)
  match received with
  | .error => { s.depart i with phase := .scan i }
  | .again => { s with phase := .scan (i + 1) }
  | .eof => { s with phase := .scan (i + 1) }
  | .data msg =>
    { notifyLoop connfd s.userCount.toNat 1 (s.receive connfd msg) with phase := .scan (i + 1) }

/-- The branch for writable clients. -/
def write (i : ℤ) (s : Server) : Option Server :=
  let connfd := (s.fds i).fd
  let s := { s with log := s.log ++ [Record.writable (s.conn connfd)] }
  match (s.users connfd).writeBuf with
  | none => some { s with phase := .scan (i + 1) }
  | some x => do
    let msg ← str (s.users x).buf 0
    let p := s.fds i
    some { s with
      log := s.log ++ [Record.sent (s.conn connfd) msg]
      users := Function.update s.users connfd { s.users connfd with writeBuf := none }
      fds := Function.update s.fds i { p with events := p.events ||| ~~~pollout ||| pollin }
      phase := .scan (i + 1) }

/-- The loop body for entry `i`, with the `i++` after it. -/
def examine (accepted : Option ℤ) (received : RecvResult) (i : ℤ) (s : Server) : Option Server :=
  match s.branch i with
  | .accept => some { s.accept accepted with phase := .scan (i + 1) }
  | .error => some { s with phase := .scan (i + 1) }
  | .departure => some { s.depart i with phase := .scan i }
  | .read => some (s.read received i)
  | .write => s.write i
  | .idle => some { s with phase := .scan (i + 1) }

/-- The entry that the next step looks at. -/
def current (s : Server) : Option ℤ :=
  match s.phase with
  | .poll => none
  | .scan i => if i < s.userCount + 1 then some i else none

end Server

def step (s : Server) : Event → Option Server
  | .poll revents =>
    match s.phase with
    | .poll => some (s.poll revents)
    | .scan _ => none
  | .examine accepted received =>
    match s.phase with
    | .poll => none
    | .scan i =>
      if i < s.userCount + 1 then s.examine accepted received i
      else some { s with phase := .poll }

/-- In front of the first `poll`; `users` is whatever `new client_data[FD_LIMIT]` left. -/
def Init (s : Server) : Prop :=
  s.fds 0 = ⟨s.sockfd, pollin ||| pollerr, 0⟩ ∧
    (∀ i, 1 ≤ i → i ≤ userLimit → (s.fds i).fd = -1 ∧ (s.fds i).events = 0) ∧
    s.userCount = 0 ∧ s.phase = .poll ∧ s.log = []

/-- `recv` returns at most as many bytes as it is asked for. -/
def RecvResult.Legal : RecvResult → Prop
  | .data msg => 0 < msg.length ∧ msg.length < bufferSize
  | _ => True

instance : (r : RecvResult) → Decidable r.Legal
  | .data _ => inferInstanceAs (Decidable (_ ∧ _))
  | .eof => isTrue trivial
  | .again => isTrue trivial
  | .error => isTrue trivial

/-- What the system promises: `accept` returns -1 or a descriptor that is not open and
has a slot in `users`. -/
def Legal (s : Server) : Event → Prop
  | .poll _ => True
  | .examine accepted received =>
    (∀ fd ∈ accepted, 0 ≤ fd ∧ fd < fdLimit ∧ fd ≠ s.sockfd ∧ ∀ p ∈ s.entries, p.fd ≠ fd) ∧ received.Legal

instance (s : Server) : (e : Event) → Decidable (Legal s e)
  | .poll _ => isTrue trivial
  | .examine _ _ => inferInstanceAs (Decidable (_ ∧ _))

/-- A server with all its memory zeroed, listening on descriptor 3. -/
def start : Server where
  sockfd := 3
  fds := fun i => if i = 0 then ⟨3, pollin ||| pollerr, 0⟩ else ⟨-1, 0, 0⟩
  userCount := 0
  users := fun _ => ⟨none, List.replicate bufferSize 0⟩
  phase := .poll
  conn := fun _ => 0
  joined := 0
  log := []

theorem init_start : Init start :=
  ⟨rfl, fun i h _ => by simp [start, show i ≠ 0 by omega], rfl, rfl, rfl⟩

end LinuxServer.PollChat
