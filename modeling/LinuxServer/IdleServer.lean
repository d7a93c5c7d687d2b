import LinuxServer.Runs
import LinuxServer.TimerList

/-!
# The server of `11-3_close_nonactive_connection.cpp`

It closes connections that have been quiet for three time slots.  The state holds
`timer_lst` and `users`; next to them stand the connections as the kernel has them,
the value of `time(NULL)`, and two records the server does not read: for which
connection each timer was created, and the calls of `cb_func` made by `tick`.

One label is one pass through a branch of the event loop.  An index outside `users`, such
as the -1 of an `accept` that failed, which nothing tests, makes the branch `none`.
-/

namespace LinuxServer.IdleServer
open TimerList

/-- `TIMESLOT`. -/
def timeslot : ℤ := 5

/-- `FD_LIMIT`, the length of `users`. -/
def fdLimit : ℤ := 65535

/-- The indices of `users`. -/
def InUsers (fd : ℤ) : Prop := 0 ≤ fd ∧ fd < fdLimit

instance (fd : ℤ) : Decidable (InUsers fd) := inferInstanceAs (Decidable (_ ∧ _))

/-- `struct client_data`: the socket and its timer. -/
structure ClientData where
  sockfd : ℤ
  timer : Option ℕ
  deriving DecidableEq, Repr

/-- An open client connection: its number in the order of `accept`, and the time of
its last activity. -/
structure Conn where
  id : ℕ
  last : ℤ
  deriving DecidableEq, Repr

/-- A call of `cb_func` from `tick` at time `cur`: the client data it is passed, the
descriptor it closes, the connection then open on the slot of that client data, and
the connection for which the timer was created. -/
structure Firing where
  cur : ℤ
  userData : ℤ
  sockfd : ℤ
  conn : Option Conn
  owner : ℕ
  deriving DecidableEq, Repr

structure Server where
  timerLst : SortTimerLst
  users : ℤ → ClientData
  conns : ℤ → Option Conn
  clock : ℤ
  accepted : ℕ
  owner : ℕ → ℕ
  fired : List Firing

/-- How `recv` on a client socket ends: data, end of file, `EAGAIN` or another error. -/
inductive RecvResult
  | data
  | eof
  | again
  | error
  deriving DecidableEq, Repr

/-- The branches of the event loop.  `accept` comes with the descriptor it returns
and the address at which `new` puts the timer; all come with the time. -/
inductive Event
  | accept (connfd : ℤ) (addr : ℕ) (now : ℤ)
  | recv (sockfd : ℤ) (ret : RecvResult) (now : ℤ)
  | timerHandler (now : ℤ)
  deriving DecidableEq, Repr

namespace Server

/-- `cb_func`: it closes the descriptor stored in the client data. -/
def cbFunc (userData : ℤ) (s : Server) : Server :=
  { s with conns := Function.update s.conns (s.users userData).sockfd none }

/-- `cb_func` as `tick` calls it, with a record of the call. -/
def fire (cur : ℤ) (tmp : ℕ) (userData : ℤ) (s : Server) : Server :=
  { s.cbFunc userData with
    fired := s.fired ++ [⟨cur, userData, (s.users userData).sockfd, s.conns userData, s.owner tmp⟩] }

/-- The branch of the listening socket. -/
def accept (s : Server) (connfd : ℤ) (addr : ℕ) (cur : ℤ) : Option Server :=
  if InUsers connfd then do
    let l := s.timerLst.alloc addr (cur + 3 * timeslot) connfd
    let l ← l.addTimer (some addr)
    some { s with
      timerLst := l
      users := Function.update s.users connfd ⟨connfd, some addr⟩
      conns := Function.update s.conns connfd (some ⟨s.accepted, cur⟩)
      clock := cur
      accepted := s.accepted + 1
      owner := Function.update s.owner addr s.accepted }
  else none

/-- The two branches that close a client: `cb_func`, then `del_timer`. -/
def closeClient (s : Server) (sockfd : ℤ) : Option Server := do
  let timer := (s.users sockfd).timer
  let s := s.cbFunc sockfd
  let l ← (if timer ≠ none then s.timerLst.delTimer timer else some s.timerLst)
  some { s with timerLst := l }

/-- The branch for received data: the timer is pushed three slots into the future. -/
def clientData (s : Server) (sockfd : ℤ) (cur : ℤ) : Option Server := do
  let timer := (s.users sockfd).timer
  let l ←
    (if timer ≠ none then do
      let l ← s.timerLst.write timer fun t => { t with expire := cur + 3 * timeslot }
      l.adjustTimer timer
    else some s.timerLst)
  some { s with
    timerLst := l
    conns := Function.update s.conns sockfd ((s.conns sockfd).map fun c => { c with last := cur }) }

/-- The branch of a client socket. -/
def recv (s : Server) (sockfd : ℤ) (ret : RecvResult) (cur : ℤ) : Option Server :=
  let s := { s with clock := cur }
  match ret with
  | .data => s.clientData sockfd cur
  | .eof => s.closeClient sockfd
  | .error => s.closeClient sockfd
  | .again => some s

/-- `timer_handler`, without `alarm`. -/
def timerHandler (s : Server) (cur : ℤ) : Option Server := do
  let (l, s) ← s.timerLst.tick (fire cur) cur { s with clock := cur }
  some { s with timerLst := l }

end Server

def step (s : Server) : Event → Option Server
  | .accept connfd addr now => s.accept connfd addr now
  | .recv sockfd ret now => s.recv sockfd ret now
  | .timerHandler now => s.timerHandler now

/-- Nothing is linked or open; `users` is whatever `new client_data[FD_LIMIT]` left. -/
def Init (s : Server) : Prop :=
  s.timerLst = .empty ∧ s.conns = (fun _ => none) ∧ s.fired = []

/-- What the system promises: time does not run backwards, `accept` returns -1 or a
descriptor that is not open, `new` returns memory that is not in use, and epoll
reports open connections only. -/
def Legal (s : Server) : Event → Prop
  | .accept connfd addr now =>
    (connfd = -1 ∨ 0 ≤ connfd ∧ s.conns connfd = none) ∧ s.timerLst.heap addr = none ∧ s.clock ≤ now
  | .recv sockfd _ now => s.conns sockfd ≠ none ∧ s.clock ≤ now
  | .timerHandler now => s.clock ≤ now

instance (s : Server) : (e : Event) → Decidable (Legal s e)
  | .accept _ _ _ => inferInstanceAs (Decidable (_ ∧ _))
  | .recv _ _ _ => inferInstanceAs (Decidable (_ ∧ _))
  | .timerHandler _ => inferInstanceAs (Decidable (_ ≤ _))

end LinuxServer.IdleServer
