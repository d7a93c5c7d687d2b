import LinuxServer.Runs
import LinuxServer.EdgePort

/-!
# The chat server of `13-4_shm_communication.cpp`

The parent accepts connections and forks a child for each.  A child reads what its
client sends into its segment of the shared memory and tells the parent, the parent
tells the other children, and these send the segment to their clients.

Every system call is a step of its own; accepting a connection, with the `fork`, is one
step.  `epoll_wait` returns any of the descriptors with an unreported arrival, each
once.  Events without `EPOLLIN` do nothing and are left out.  What the outside does
comes as labels: connections, client data, signals, the death of a child.  The parent's
`kill` is no step, as a child may get a `SIGTERM` at any time.  The source never calls
`listen`; whether `accept` returns a connection is left to the labels.

The server does not see which child a descriptor of the parent leads to, nor `pipefd0`
of a child, `writes`, `delivered` and what a notification carries beside its number.
-/

namespace LinuxServer.ShmChat

/-- `USER_LIMIT`. -/
def userLimit : ℤ := 5
/-- `BUFFER_SIZE`. -/
def bufferSize : ℕ := 1024
/-- `PROCESS_LIMIT`. -/
def processLimit : ℤ := 65536

/-- The contents of a segment of the shared memory. -/
abbrev Segment := Fin bufferSize → UInt8

/-- `struct client_data`, without the address, which nothing reads. -/
structure ClientData where
  connfd : ℤ
  pid : ℤ
  pipefd0 : ℤ
  pipefd1 : ℤ
  deriving DecidableEq, Repr

/-- The number of a segment on its way from one process to another, with the child that
sent it first, what its segment held then, and how often it had been written to. -/
structure Notification where
  client : ℤ
  origin : ℕ
  snapshot : Segment
  stamp : ℕ

/-- A segment sent to a client because of a notification. -/
structure Delivery where
  child : ℕ
  notification : Notification
  bytes : Segment
  stamp : ℕ

inductive Signal
  | chld
  | term
  | int
  | other
  deriving DecidableEq, Repr

/-- What a descriptor of the parent is: one of its own four, its end of the pipe of a
child, or an end of a pipe without a child. -/
inductive File
  | listen
  | epoll
  | sig
  | pipe (k : ℕ)
  | orphan
  deriving DecidableEq, Repr

/-- The two descriptors of a child. -/
inductive ChildFd
  | conn
  | pipe
  deriving DecidableEq, Repr

/-- Where a child is: at the `while` test, in `epoll_wait`, with a list of events to
handle, or inside a branch with those that follow; then dead, and reaped. -/
inductive ChildPc
  | loop
  | wait
  | batch (events : List ChildFd)
  | cleared (events : List ChildFd)
  | received (events : List ChildFd)
  | got (n : Notification) (events : List ChildFd)
  | zombie
  | reaped

/-- `run_child` still runs. -/
def ChildPc.running : ChildPc → Bool
  | .zombie => false
  | .reaped => false
  | _ => true

def ChildPc.isZombie : ChildPc → Bool
  | .zombie => true
  | _ => false

def ChildPc.isReaped : ChildPc → Bool
  | .reaped => true
  | _ => false

/-- A child with its end of the pipe (`pipe`), and that of the parent (`up`). -/
structure Child where
  pid : ℤ
  idx : ℤ
  pipefd0 : ℤ
  pc : ChildPc
  stopChild : Bool
  conn : Port UInt8
  pipe : Port Notification
  up : Port Notification

/-- Where the parent is: in `epoll_wait`, with a list of descriptors to handle, in the
loop over the signals, in the `waitpid` loop, in the loop that forwards a notification,
or behind its main loop. -/
inductive ParentPc
  | wait
  | batch (events : List ℤ)
  | signals (sigs : List Signal) (events : List ℤ)
  | reap (sigs : List Signal) (events : List ℤ)
  | forward (n : Notification) (sockfd : ℤ) (j : ℤ) (events : List ℤ)
  | done

structure Server where
  listenfd : ℤ
  sigPipefd0 : ℤ
  pc : ParentPc
  stopServer : Bool
  terminate : Bool
  users : ℤ → ClientData
  userCount : ℤ
  subProcess : ℤ → ℤ
  files : ℤ → Option File
  backlog : Port Unit
  signals : Port Signal
  sigchld : Bool
  child : ℕ → Child
  forked : ℕ
  shareMem : ℤ → UInt8
  writes : ℤ → ℕ
  delivered : List Delivery

/-- What `accept`, `socketpair` and `fork` return. -/
inductive Accepted
  | failed
  | connected (connfd pipefd0 pipefd1 : ℤ) (pid : Option ℤ)
  deriving DecidableEq, Repr

inductive Event
  | connect
  | clientData (k : ℕ) (bytes : List UInt8)
  | signal (sig : Signal)
  | sigHandler
  | childTermHandler (k : ℕ)
  | childDies (k : ℕ)
  | epollWait (ready : List ℤ)
  | accept (result : Accepted)
  | waitpid (k : Option ℕ)
  | parentStep (sent : Bool)
  | childWait (k : ℕ) (ready : List ChildFd)
  | childStep (k : ℕ) (ok : Bool)

namespace Server

def setChild (k : ℕ) (c : Child) (s : Server) : Server := { s with child := Function.update s.child k c }

/-! ## The shared memory -/

/-- The bytes from `share_mem + i * BUFFER_SIZE` on. -/
def segment (s : Server) (i : ℤ) : Segment := fun p => s.shareMem (i * bufferSize + p.val)

/-- `memset` of a whole segment. -/
def memset (i : ℤ) (s : Server) : Server :=
  { s with
    shareMem := fun a => if i * bufferSize ≤ a ∧ a < i * bufferSize + bufferSize then 0 else s.shareMem a
    writes := Function.update s.writes i (s.writes i + 1) }

/-- `recv` into a segment. -/
def store (i : ℤ) (bytes : List UInt8) (s : Server) : Server :=
  { s with
    shareMem := fun a =>
      if i * bufferSize ≤ a ∧ a < i * bufferSize + bytes.length then
        bytes.getD (a - i * bufferSize).toNat 0
      else s.shareMem a
    writes := Function.update s.writes i (s.writes i + 1) }

/-! ## The children -/

/-- A child has left `run_child`, or was killed; its end of the pipe is closed. -/
def childDies (k : ℕ) (s : Server) : Server :=
  { s.setChild k { s.child k with pc := .zombie, up := (s.child k).up.arrive [] } with sigchld := true }

/-- The next statement of `run_child` up to a system call.  For a call to `recv` that
fails otherwise than with `EAGAIN`, or finds the other end closed, `ok` is false, and
for a `send` that does not get through. -/
def childStep (k : ℕ) (ok : Bool) (s : Server) : Option Server :=
  let c := s.child k
  match c.pc with
  | .loop => some (if c.stopChild then s.childDies k else s.setChild k { c with pc := .wait })
  | .batch [] => some (s.setChild k { c with pc := .loop })
  | .batch (.conn :: rest) => some ((s.memset c.idx).setChild k { c with pc := .cleared rest })
  | .batch (.pipe :: rest) =>
    if !ok then some (s.setChild k { c with pc := .batch rest, stopChild := true })
    else
      match c.pipe.queue with
      | [] => some (s.setChild k { c with pc := .batch rest })
      | n :: _ => some (s.setChild k { c with pc := .got n rest, pipe := c.pipe.taken 1 })
  | .cleared rest =>
    if !ok then some (s.setChild k { c with pc := .batch rest, stopChild := true })
    else if c.conn.queue = [] then some (s.setChild k { c with pc := .batch rest })
    else
      some ((s.store c.idx (c.conn.queue.take (bufferSize - 1))).setChild k
        { c with pc := .received rest, conn := c.conn.taken (bufferSize - 1) })
  | .received rest =>
    let n : Notification := ⟨c.idx, k, s.segment c.idx, s.writes c.idx⟩
    some (s.setChild k { c with
      pc := .batch rest
      up := if ok then c.up.arrive [n] else c.up })
  | .got n rest =>
    some { s.setChild k { c with pc := .batch rest } with
      delivered := s.delivered ++ [⟨k, n, s.segment n.client, s.writes n.client⟩] }
  | .wait => none
  | .zombie => none
  | .reaped => none

/-- `epoll_wait` of a child. -/
def childWait (k : ℕ) (ready : List ChildFd) (s : Server) : Option Server :=
  let c := s.child k
  match c.pc with
  | .wait =>
    some (s.setChild k { c with
      pc := .batch ready
      conn := if .conn ∈ ready then c.conn.report else c.conn
      pipe := if .pipe ∈ ready then c.pipe.report else c.pipe })
  | _ => none

/-! ## The parent -/

/-- Whether a descriptor has an arrival that `epoll_wait` has not returned. -/
def edge (s : Server) (fd : ℤ) : Bool :=
  if fd = s.listenfd then s.backlog.edge
  else if fd = s.sigPipefd0 then s.signals.edge
  else
    match s.files fd with
    | some (.pipe k) => (s.child k).up.edge
    | _ => false

/-- `epoll_wait` returns a descriptor. -/
def report (s : Server) (fd : ℤ) : Server :=
  if fd = s.listenfd then { s with backlog := s.backlog.report }
  else if fd = s.sigPipefd0 then { s with signals := s.signals.report }
  else
    match s.files fd with
    | some (.pipe k) => s.setChild k { s.child k with up := (s.child k).up.report }
    | _ => s

def epollWait (ready : List ℤ) (s : Server) : Option Server :=
  match s.pc with
  | .wait => some { ready.foldl report s with pc := .batch ready }
  | _ => none

/-- A child right after `fork`. -/
def newChild (pid idx pipefd0 : ℤ) : Child where
  pid := pid
  idx := idx
  pipefd0 := pipefd0
  pc := .loop
  stopChild := false
  conn := .empty
  pipe := .empty
  up := .empty

/-- `users[user_count]` is filled in and the pipe created. -/
def openPipe (connfd pipefd0 pipefd1 : ℤ) (s : Server) : Server :=
  { s with
    users := Function.update s.users s.userCount
      { s.users s.userCount with connfd := connfd, pipefd0 := pipefd0, pipefd1 := pipefd1 } }

/-- `fork` has failed: the connection is closed, the pipe is not. -/
def forkFails (pipefd0 pipefd1 : ℤ) (s : Server) : Server :=
  { s with files := Function.update (Function.update s.files pipefd0 (some .orphan)) pipefd1 (some .orphan) }

/-- What the parent does after `fork`. -/
def join (pid pipefd0 : ℤ) (s : Server) : Server :=
  { s with
    files := Function.update s.files pipefd0 (some (.pipe s.forked))
    users := Function.update s.users s.userCount { s.users s.userCount with pid := pid }
    subProcess := Function.update s.subProcess pid s.userCount
    userCount := s.userCount + 1
    child := Function.update s.child s.forked (newChild pid s.userCount pipefd0)
    forked := s.forked + 1 }

/-- The branch of the listening socket. -/
def acceptBranch (result : Accepted) (s : Server) : Server :=
  match result with
  | .failed => s
  | .connected connfd pipefd0 pipefd1 pid =>
    let s := { s with backlog := s.backlog.taken 1 }
    if userLimit ≤ s.userCount then s
    else
      let s := s.openPipe connfd pipefd0 pipefd1
      match pid with
      | none => s.forkFails pipefd0 pipefd1
      | some pid => s.join pid pipefd0

def accept (result : Accepted) (s : Server) : Option Server :=
  match s.pc with
  | .batch (fd :: rest) =>
    if fd = s.listenfd then some { s.acceptBranch result with pc := .batch rest } else none
  | _ => none

/-- The body of the `waitpid` loop for the child `k`. -/
def reap (k : ℕ) (s : Server) : Server :=
  let pid := (s.child k).pid
  let delUser := s.subProcess pid
  let s := { s.setChild k { s.child k with pc := .reaped } with
    subProcess := Function.update s.subProcess pid (-1) }
  if delUser < 0 ∨ userLimit < delUser then s
  else
    let last := s.users (s.userCount - 1)
    { s with
      files := Function.update s.files (s.users delUser).pipefd0 none
      userCount := s.userCount - 1
      users := Function.update s.users delUser last
      subProcess := Function.update s.subProcess last.pid delUser }

/-- A call of `waitpid`, with the child it returns. -/
def waitpid (k : Option ℕ) (s : Server) : Option Server :=
  match s.pc with
  | .reap sigs rest =>
    match k with
    | some k => some (s.reap k)
    | none => some { s with
        stopServer := s.stopServer || (s.terminate && s.userCount = 0)
        pc := .signals sigs rest }
  | _ => none

/-- `SIGTERM` or `SIGINT`. -/
def stop (s : Server) : Server :=
  if s.userCount = 0 then { s with stopServer := true } else { s with terminate := true }

/-- The `send` to the child of entry `j`, which does nothing once that child is dead. -/
def forwardTo (n : Notification) (j : ℤ) (s : Server) : Server :=
  match s.files (s.users j).pipefd0 with
  | some (.pipe k) =>
    if (s.child k).pc.running then s.setChild k { s.child k with pipe := (s.child k).pipe.arrive [n] }
    else s
  | _ => s

/-- The next statement of the parent up to a system call other than `epoll_wait`,
`accept` and `waitpid`; `sent` says whether a `send` gets through. -/
def parentStep (sent : Bool) (s : Server) : Option Server :=
  match s.pc with
  | .wait => none
  | .batch [] => some { s with pc := if s.stopServer then .done else .wait }
  | .batch (fd :: rest) =>
    if fd = s.listenfd then none
    else if fd = s.sigPipefd0 then
      if s.signals.queue = [] then some { s with pc := .batch rest }
      else some { s with pc := .signals (s.signals.queue.take 1024) rest, signals := s.signals.taken 1024 }
    else
      match s.files fd with
      | some (.pipe k) =>
        match (s.child k).up.queue with
        | [] => some { s with pc := .batch rest }
        | n :: _ => some { s.setChild k { s.child k with up := (s.child k).up.taken 1 } with
            pc := .forward n fd 0 rest }
      | _ => some { s with pc := .batch rest }
  | .signals [] rest => some { s with pc := .batch rest }
  | .signals (.chld :: sigs) rest => some { s with pc := .reap sigs rest }
  | .signals (.other :: sigs) rest => some { s with pc := .signals sigs rest }
  | .signals (_ :: sigs) rest => some { s.stop with pc := .signals sigs rest }
  | .reap _ _ => none
  | .forward n sockfd j rest =>
    if j < s.userCount then
      some { (if (s.users j).pipefd0 ≠ sockfd ∧ sent then s.forwardTo n j else s) with
        pc := .forward n sockfd (j + 1) rest }
    else some { s with pc := .batch rest }
  | .done => none

end Server

def step (s : Server) : Event → Option Server
  | .connect => some { s with backlog := s.backlog.arrive [()] }
  | .clientData k bytes => some (s.setChild k { s.child k with conn := (s.child k).conn.arrive bytes })
  | .signal sig => some { s with signals := s.signals.arrive [sig] }
  | .sigHandler =>
    if s.sigchld then some { s with sigchld := false, signals := s.signals.arrive [.chld] } else none
  | .childTermHandler k => some (s.setChild k { s.child k with stopChild := true })
  | .childDies k => if (s.child k).pc.running then some (s.childDies k) else none
  | .epollWait ready => s.epollWait ready
  | .accept result => s.accept result
  | .waitpid k => s.waitpid k
  | .parentStep sent => s.parentStep sent
  | .childWait k ready => s.childWait k ready
  | .childStep k ok => s.childStep k ok

/-- In front of the main loop, with blanks for the children to come. -/
def Init (s : Server) : Prop :=
  s.pc = .wait ∧ s.stopServer = false ∧ s.terminate = false ∧ s.userCount = 0 ∧
    (∀ pid, 0 ≤ pid → pid < processLimit → s.subProcess pid = -1) ∧
    s.files s.listenfd = some .listen ∧ s.files s.sigPipefd0 = some .sig ∧
    (∀ fd k, s.files fd ≠ some (.pipe k)) ∧
    s.backlog = .empty ∧ s.signals = .empty ∧ s.sigchld = false ∧ s.forked = 0 ∧ s.delivered = [] ∧
    ∀ k, s.child k = Server.newChild 0 0 0

/-- What `accept`, `socketpair` and `fork` promise: new descriptors, and a pid that no
child has that was not reaped. -/
def Accepted.Legal (s : Server) : Accepted → Prop
  | .failed => True
  | .connected connfd pipefd0 pipefd1 pid =>
    s.backlog.queue ≠ [] ∧ s.files connfd = none ∧ s.files pipefd0 = none ∧ s.files pipefd1 = none ∧
      connfd ≠ pipefd0 ∧ connfd ≠ pipefd1 ∧ pipefd0 ≠ pipefd1 ∧
      ∀ p ∈ pid, 0 < p ∧ p < processLimit ∧
        ∀ k < s.forked, (s.child k).pc.isReaped = false → (s.child k).pid ≠ p

/-- What the system promises: labels are about children there are, `epoll_wait` returns
descriptors with an arrival, once each, and `waitpid` a child that has exited, if there
is one. -/
def Legal (s : Server) : Event → Prop
  | .connect => True
  | .clientData k _ => k < s.forked
  | .signal _ => True
  | .sigHandler => True
  | .childTermHandler k => k < s.forked
  | .childDies k => k < s.forked
  | .epollWait ready => ready.Nodup ∧ ∀ fd ∈ ready, s.edge fd = true
  | .accept result => result.Legal s
  | .waitpid (some k) => k < s.forked ∧ (s.child k).pc.isZombie = true
  | .waitpid none => ∀ k < s.forked, (s.child k).pc.isZombie = false
  | .parentStep _ => True
  | .childWait k ready => k < s.forked ∧ ready.Nodup ∧
    (.conn ∈ ready → (s.child k).conn.edge = true) ∧ (.pipe ∈ ready → (s.child k).pipe.edge = true)
  | .childStep k _ => k < s.forked

instance (s : Server) : (r : Accepted) → Decidable (r.Legal s)
  | .failed => isTrue trivial
  | .connected _ _ _ _ => inferInstanceAs (Decidable (_ ∧ _))

instance (s : Server) : (e : Event) → Decidable (Legal s e)
  | .connect => isTrue trivial
  | .clientData k _ => inferInstanceAs (Decidable (k < s.forked))
  | .signal _ => isTrue trivial
  | .sigHandler => isTrue trivial
  | .childTermHandler k => inferInstanceAs (Decidable (k < s.forked))
  | .childDies k => inferInstanceAs (Decidable (k < s.forked))
  | .epollWait _ => inferInstanceAs (Decidable (_ ∧ _))
  | .accept result => inferInstanceAs (Decidable (result.Legal s))
  | .waitpid (some _) => inferInstanceAs (Decidable (_ ∧ _))
  | .waitpid none => inferInstanceAs (Decidable (∀ k < s.forked, _ = _))
  | .parentStep _ => isTrue trivial
  | .childWait _ _ => inferInstanceAs (Decidable (_ ∧ _))
  | .childStep k _ => inferInstanceAs (Decidable (k < s.forked))

/-- A server with all its memory zeroed. -/
def start : Server where
  listenfd := 3
  sigPipefd0 := 5
  pc := .wait
  stopServer := false
  terminate := false
  users := fun _ => ⟨0, 0, 0, 0⟩
  userCount := 0
  subProcess := fun _ => -1
  files := fun fd =>
    if fd = 3 then some .listen else if fd = 4 then some .epoll
    else if fd = 5 ∨ fd = 6 then some .sig else none
  backlog := .empty
  signals := .empty
  sigchld := false
  child := fun _ => Server.newChild 0 0 0
  forked := 0
  shareMem := fun _ => 0
  writes := fun _ => 0
  delivered := []

theorem init_start : Init start := by
  refine ⟨rfl, rfl, rfl, rfl, fun _ _ _ => rfl, rfl, rfl, fun fd k => ?_, rfl, rfl, rfl, rfl, rfl,
    fun _ => rfl⟩
  simp only [start]
  split
  · simp
  · split
    · simp
    · split <;> simp

end LinuxServer.ShmChat
