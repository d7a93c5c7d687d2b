import LinuxServer.CString
import Mathlib.Data.Int.Order.Basic
import Mathlib.Logic.Function.Basic

/-!
# The server of `9-4_EPOLLONESHOT.cpp`

The main loop starts a thread for every readable client socket.  A thread finds the number
of its socket in `fds_for_new_worker`, of which there is one, and reads from the socket
until it is closed or has nothing more.  (`epollfd`, next to it, is the same for all.)  A
client socket is reported once and then not again before `reset_oneshot`.

Every round of a worker's loop, with its `recv`, is a step, and so is the handling of an
event by the main loop.  What `epoll_wait`, `accept` and `recv` return comes as labels.
The main loop ends when `epoll_wait` fails, and the program with it; this is left out.
-/

namespace LinuxServer.Oneshot
open CString

/-- `BUFFER_SIZE`. -/
def bufferSize : ℕ := 1024

/-- What `recv` returns: bytes, 0, or -1 with `errno` equal to `EAGAIN` or not. -/
inductive RecvResult
  | data (bytes : List UInt8)
  | eof
  | again
  | error
  deriving DecidableEq, Repr

/-- What a worker does in a round: it prints, closes its socket or re-arms it. -/
inductive Action
  | content (s : List UInt8)
  | foreignerClosed
  | readLater
  | endThread (fd : ℤ)
  | close (fd : ℤ)
  | resetOneshot (fd : ℤ)
  deriving DecidableEq, Repr

/-- The local variables of `worker`, and whether it is in its loop. -/
structure Worker where
  sockfd : ℤ
  buf : List UInt8
  running : Bool
  deriving DecidableEq, Repr

namespace Worker

/-- In front of the loop, behind the `memset`. -/
def start (sockfd : ℤ) : Worker where
  sockfd := sockfd
  buf := List.replicate bufferSize 0
  running := true

/-- A round of the loop.  It is `none` when `printf` runs off the end of `buf`. -/
def turn (w : Worker) : RecvResult → Option (Worker × List Action)
  | .eof =>
    some ({ w with running := false }, [.close w.sockfd, .foreignerClosed, .endThread w.sockfd])
  | .again =>
    some ({ w with running := false }, [.resetOneshot w.sockfd, .readLater, .endThread w.sockfd])
  | .error => some (w, [])
  | .data bytes => do
    let buf := bytes ++ w.buf.drop bytes.length
    let s ← str buf 0
    some ({ w with buf := buf }, [.content s])

/-- At most `n` rounds, with the results of `recv` in order. -/
def run : ℕ → (ℕ → RecvResult) → Worker → Option (Worker × List Action)
  | 0, _, w => some (w, [])
  | n + 1, recv, w =>
    if w.running then do
      let (w, now) ← w.turn (recv 0)
      let (w, later) ← run n (fun i => recv (i + 1)) w
      some (w, now ++ later)
    else some (w, [])

end Worker

/-- A thread, with the socket whose event it was created for, which it does not see itself.
Its worker starts when it reads its argument. -/
structure Thread where
  origin : ℤ
  worker : Option Worker
  deriving DecidableEq, Repr

/-- Not started yet, or in its recv loop. -/
def Thread.active (t : Thread) : Bool := t.worker.all Worker.running

/-- The main loop is in `epoll_wait` or has `events` left to handle, each with the test for
`EPOLLIN`.  `armed` has the open client sockets, and whether they may be reported. -/
structure Server where
  listenfd : ℤ
  events : Option (List (ℤ × Bool))
  fdsForNewWorker : ℤ
  armed : ℤ → Option Bool
  thread : ℕ → Thread
  created : ℕ

inductive Event
  | epollWait (ready : List (ℤ × Bool))
  | handle (connfd : Option ℤ)
  | workerStart (k : ℕ)
  | workerRecv (k : ℕ) (result : RecvResult)
  deriving DecidableEq, Repr

namespace Server

/-- What an action does to the sockets. -/
def perform (s : Server) : Action → Server
  | .close fd => { s with armed := Function.update s.armed fd none }
  | .resetOneshot fd => { s with armed := Function.update s.armed fd ((s.armed fd).map fun _ => true) }
  | _ => s

/-- A client socket is reported. -/
def report (s : Server) (e : ℤ × Bool) : Server :=
  { s with armed := Function.update s.armed e.1 ((s.armed e.1).map fun _ => false) }

def epollWait (ready : List (ℤ × Bool)) (s : Server) : Option Server :=
  match s.events with
  | none => some { ready.foldl report s with events := some ready }
  | some _ => none

/-- `pthread_create` for the socket `fd`. -/
def dispatch (fd : ℤ) (s : Server) : Server :=
  { s with
    fdsForNewWorker := fd
    thread := Function.update s.thread s.created ⟨fd, none⟩
    created := s.created + 1 }

/-- The body of the `for` loop for the next event, or its end.  `connfd` is what `accept`
returns, if it is called. -/
def handle (connfd : Option ℤ) (s : Server) : Option Server :=
  match s.events with
  | none => none
  | some [] => some { s with events := none }
  | some ((fd, readable) :: rest) =>
    let s := { s with events := some rest }
    if fd = s.listenfd then
      match connfd with
      | none => some s
      | some connfd => some { s with armed := Function.update s.armed connfd (some true) }
    else if readable then some (s.dispatch fd)
    else some s

/-- The first statements of `worker`. -/
def workerStart (k : ℕ) (s : Server) : Option Server :=
  match (s.thread k).worker with
  | none => some { s with
      thread := Function.update s.thread k { s.thread k with worker := some (.start s.fdsForNewWorker) } }
  | some _ => none

def workerRecv (k : ℕ) (result : RecvResult) (s : Server) : Option Server :=
  match (s.thread k).worker with
  | none => none
  | some w =>
    if w.running then do
      let (w, actions) ← w.turn result
      some (actions.foldl perform
        { s with thread := Function.update s.thread k { s.thread k with worker := some w } })
    else none

end Server

def step (s : Server) : Event → Option Server
  | .epollWait ready => s.epollWait ready
  | .handle connfd => s.handle connfd
  | .workerStart k => s.workerStart k
  | .workerRecv k result => s.workerRecv k result

/-- No client is connected, and no thread was created. -/
def Init (s : Server) : Prop := s.events = none ∧ s.created = 0 ∧ ∀ fd, s.armed fd = none

/-- What `recv` may return on the socket `fd`: on a closed one it fails. -/
def RecvResult.Legal (s : Server) (fd : ℤ) : RecvResult → Prop
  | .data bytes => s.armed fd ≠ none ∧ 1 ≤ bytes.length ∧ bytes.length ≤ bufferSize - 1
  | .eof => s.armed fd ≠ none
  | .again => s.armed fd ≠ none
  | .error => True

/-- What the system promises: `epoll_wait` reports the listening socket and armed ones, once
each, `accept` returns a new descriptor, and labels are about threads there are. -/
def Legal (s : Server) : Event → Prop
  | .epollWait ready => (ready.map Prod.fst).Nodup ∧
      ∀ e ∈ ready, e.1 = s.listenfd ∨ s.armed e.1 = some true
  | .handle none => True
  | .handle (some connfd) => connfd ≠ s.listenfd ∧ s.armed connfd = none
  | .workerStart k => k < s.created
  | .workerRecv k result => k < s.created ∧ ∀ w ∈ (s.thread k).worker, result.Legal s w.sockfd

instance (s : Server) (fd : ℤ) : (r : RecvResult) → Decidable (r.Legal s fd)
  | .data _ => inferInstanceAs (Decidable (_ ∧ _))
  | .eof => inferInstanceAs (Decidable (_ ≠ _))
  | .again => inferInstanceAs (Decidable (_ ≠ _))
  | .error => isTrue trivial

instance (s : Server) : (e : Event) → Decidable (Legal s e)
  | .epollWait _ => inferInstanceAs (Decidable (_ ∧ _))
  | .handle none => isTrue trivial
  | .handle (some _) => inferInstanceAs (Decidable (_ ∧ _))
  | .workerStart k => inferInstanceAs (Decidable (k < s.created))
  | .workerRecv _ _ => inferInstanceAs (Decidable (_ ∧ ∀ w ∈ _, _))

/-- A server in front of its loop; 3 is the listening socket. -/
def start : Server where
  listenfd := 3
  events := none
  fdsForNewWorker := 0
  armed _ := none
  thread _ := ⟨0, none⟩
  created := 0

theorem init_start : Init start := ⟨rfl, rfl, fun _ => rfl⟩

end LinuxServer.Oneshot
