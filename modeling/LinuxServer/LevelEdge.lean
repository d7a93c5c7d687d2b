import LinuxServer.CString
import Mathlib.Data.Int.Order.Basic
import Mathlib.Logic.Function.Basic

/-!
# The readers of `9-3_LT_ET.cpp`

`lt` reads once for a report and relies on being called again.  `et` reads until `recv` says
that there is nothing more, but does not leave its loop after it closed the socket.

The kernel is a part of the state: it has the receive queues of the open client sockets,
which are all non-blocking, and the calls made so far.
-/

namespace LinuxServer.LevelEdge
open CString

/-- `BUFFER_SIZE`. -/
def bufferSize : ℕ := 10

/-- The bytes not received yet, and whether the peer has shut down after them. -/
structure Socket where
  queue : List UInt8
  shut : Bool
  deriving DecidableEq, Repr

/-- What `recv` returns: bytes, 0, or -1 with `errno` equal to `EAGAIN` or not. -/
inductive RecvResult
  | data (bytes : List UInt8)
  | eof
  | again
  | error
  deriving DecidableEq, Repr

/-- A call, or the line of output about `ret` bytes; its text is `none` when `printf` runs
off the end of `buf`. -/
inductive Call
  | recv (fd : ℤ) (result : RecvResult)
  | close (fd : ℤ)
  | printf (ret : ℕ) (text : Option (List UInt8))
  deriving DecidableEq, Repr

/-- `interest` is the kernel event table, with `EPOLLET` or without.  `backlog` has the
connections that `accept` will return, with their descriptors. -/
structure Kernel where
  sockets : ℤ → Option Socket
  backlog : List (ℤ × Socket)
  interest : ℤ → Option Bool
  calls : List Call

/-- `recv` of at most `len` bytes, and what it leaves. -/
def Socket.recv (len : ℕ) (s : Socket) : RecvResult × Socket :=
  if s.queue ≠ [] then (.data (s.queue.take len), { s with queue := s.queue.drop len })
  else if s.shut then (.eof, s)
  else (.again, s)

namespace Kernel

/-- On a descriptor that is not open `recv` fails. -/
def recv (fd : ℤ) (len : ℕ) (k : Kernel) : RecvResult × Kernel :=
  match k.sockets fd with
  | none => (.error, { k with calls := k.calls ++ [.recv fd .error] })
  | some s =>
    ((s.recv len).1, { k with
      sockets := Function.update k.sockets fd (some (s.recv len).2)
      calls := k.calls ++ [.recv fd (s.recv len).1] })

def close (fd : ℤ) (k : Kernel) : Kernel :=
  { k with
    sockets := Function.update k.sockets fd none
    interest := Function.update k.interest fd none
    calls := k.calls ++ [.close fd] }

/-- The bytes are in a buffer cleared before. -/
def printf (bytes : List UInt8) (k : Kernel) : Kernel :=
  { k with
    calls := k.calls ++
      [.printf bytes.length (str (bytes ++ List.replicate (bufferSize - bytes.length) 0) 0)] }

/-- `accept` and `addfd`.  Without a connection `accept` returns -1, and `addfd` fails. -/
def accept (enableEt : Bool) (k : Kernel) : Kernel :=
  match k.backlog with
  | [] => k
  | (connfd, s) :: rest =>
    { k with
      sockets := Function.update k.sockets connfd (some s)
      backlog := rest
      interest := Function.update k.interest connfd (some enableEt) }

/-- A level-triggered socket is reported. -/
def readable (fd : ℤ) (k : Kernel) : Bool := (k.sockets fd).any fun s => s.queue ≠ [] || s.shut

end Kernel

/-- The body of the `for` loop of `lt`.  An event has its socket and the test for `EPOLLIN`. -/
def ltEvent (listenfd : ℤ) (k : Kernel) (e : ℤ × Bool) : Kernel :=
  if e.1 = listenfd then k.accept false
  else if e.2 then
    match k.recv e.1 (bufferSize - 1) with
    | (.data bytes, k) => k.printf bytes
    | (_, k) => k.close e.1
  else k

def lt (listenfd : ℤ) (events : List (ℤ × Bool)) (k : Kernel) : Kernel :=
  events.foldl (ltEvent listenfd) k

/-- The `while` loop of `et`, with at most `fuel` rounds. -/
def etLoop (fd : ℤ) : ℕ → Kernel → Option Kernel
  | 0, _ => none
  | fuel + 1, k =>
    match k.recv fd (bufferSize - 1) with
    | (.again, k) => some k
    | (.error, k) => some (k.close fd)
    -- there is no `break` here
    | (.eof, k) => etLoop fd fuel (k.close fd)
    | (.data bytes, k) => etLoop fd fuel (k.printf bytes)

/-- The body of the `for` loop of `et`. -/
def etEvent (fuel : ℕ) (listenfd : ℤ) (k : Kernel) (e : ℤ × Bool) : Option Kernel :=
  if e.1 = listenfd then some (k.accept true)
  else if e.2 then etLoop e.1 fuel k
  else some k

def et (fuel : ℕ) (listenfd : ℤ) (events : List (ℤ × Bool)) (k : Kernel) : Option Kernel :=
  events.foldlM (etEvent fuel listenfd) k

/-- `lt` for every report about the socket, of which there are less than `fuel`. -/
def ltReports (listenfd fd : ℤ) : ℕ → Kernel → Option Kernel
  | 0, _ => none
  | fuel + 1, k =>
    if k.readable fd then ltReports listenfd fd fuel (lt listenfd [(fd, true)] k) else some k

/-- The bytes that a call received from `fd`. -/
def Call.piece (fd : ℤ) : Call → Option (List UInt8)
  | .recv fd' (.data bytes) => if fd' = fd then some bytes else none
  | _ => none

/-- The pieces received from `fd`, in order. -/
def pieces (fd : ℤ) (calls : List Call) : List (List UInt8) := calls.filterMap (Call.piece fd)

/-- No `recv` on `fd` after it was closed. -/
def Orderly (fd : ℤ) (calls : List Call) : Prop :=
  calls.Pairwise fun a b => a = .close fd → ∀ result, b ≠ .recv fd result

/-- What a reader of the queue `q` ought to have done in the end. -/
structure Reads (fd : ℤ) (q : List UInt8) (shut : Bool) (calls : List Call) : Prop where
  short : ∀ p ∈ pieces fd calls, p.length ≤ bufferSize - 1
  whole : (pieces fd calls).flatten = q
  closes : calls.count (.close fd) = if shut then 1 else 0
  orderly : Orderly fd calls

/-- `lt`, called for every report, and `et`, called once, both come to an end, have received
the same pieces, and have read as they ought to. -/
def Agree (listenfd fd : ℤ) (q : List UInt8) (shut : Bool) (k : Kernel) : Prop :=
  ∃ fuel k₁ k₂, ltReports listenfd fd fuel k = some k₁ ∧ et fuel listenfd [(fd, true)] k = some k₂ ∧
    pieces fd k₁.calls = pieces fd k₂.calls ∧ Reads fd q shut k₁.calls ∧ Reads fd q shut k₂.calls

section rounds

variable {k : Kernel} {listenfd fd : ℤ} {q : List UInt8} {shut : Bool} {ps : List (List UInt8)}
  {tail : List Call}

/-- The calls of a round that receives `p`. -/
def roundCalls (fd : ℤ) (p : List UInt8) : List Call :=
  [.recv fd (.data p), .printf p.length (some (cstr p))]

theorem recv_open {s : Socket} (h : k.sockets fd = some s) (len : ℕ) :
    k.recv fd len = ((s.recv len).1, { k with
      sockets := Function.update k.sockets fd (some (s.recv len).2)
      calls := k.calls ++ [.recv fd (s.recv len).1] }) := by
  unfold Kernel.recv
  rw [h]

theorem recv_closed (h : k.sockets fd = none) (len : ℕ) :
    k.recv fd len = (.error, { k with calls := k.calls ++ [.recv fd .error] }) := by
  unfold Kernel.recv
  rw [h]

theorem close_calls (fd : ℤ) (k : Kernel) : (k.close fd).calls = k.calls ++ [.close fd] := rfl

/-- There is a NUL behind the bytes of a piece. -/
theorem printf_calls {p : List UInt8} (hp : p.length ≤ bufferSize - 1) :
    (k.printf p).calls = k.calls ++ [.printf p.length (some (cstr p))] := by
  have hpos : 0 < bufferSize - p.length := by
    have : 1 ≤ bufferSize := by decide
    omega
  have hstr := str_zeros p hpos
  unfold Kernel.printf
  simp only [hstr]

/-- As long as there are bytes, a report is handled like a round of the loop of `et`. -/
theorem read_step (hfd : fd ≠ listenfd) (h : k.sockets fd = some ⟨q, shut⟩) (hq : q ≠ []) :
    ∃ k', k'.sockets fd = some ⟨q.drop (bufferSize - 1), shut⟩ ∧
      k'.calls = k.calls ++ roundCalls fd (q.take (bufferSize - 1)) ∧
      ∀ fuel, ltReports listenfd fd (fuel + 1) k = ltReports listenfd fd fuel k' ∧
        etLoop fd (fuel + 1) k = etLoop fd fuel k' := by
  have hrecv : Socket.recv (bufferSize - 1) ⟨q, shut⟩ =
      (.data (q.take (bufferSize - 1)), ⟨q.drop (bufferSize - 1), shut⟩) := if_pos hq
  have hread : k.readable fd = true := by
    unfold Kernel.readable
    simp [h, hq]
  have hk := recv_open h (bufferSize - 1)
  rw [hrecv] at hk
  refine ⟨Kernel.printf (q.take (bufferSize - 1)) (k.recv fd (bufferSize - 1)).2, ?_, ?_, fun fuel => ⟨?_, ?_⟩⟩
  · rw [hk]
    exact Function.update_self ..
  · rw [printf_calls (List.length_take_le ..), hk]
    simp [roundCalls]
  · rw [ltReports, if_pos hread]
    simp only [lt, List.foldl_cons, List.foldl_nil, ltEvent, if_neg hfd, if_true, hk]
  · rw [etLoop]
    simp only [hk]

/-- Both readers receive the queue in the same pieces. -/
theorem read_queue (hfd : fd ≠ listenfd) (h : k.sockets fd = some ⟨q, shut⟩) :
    ∃ (ps : List (List UInt8)) (k' : Kernel), ps.flatten = q ∧ (∀ p ∈ ps, p.length ≤ bufferSize - 1) ∧
      k'.sockets fd = some ⟨[], shut⟩ ∧ k'.calls = k.calls ++ ps.flatMap (roundCalls fd) ∧
      ∀ fuel, ltReports listenfd fd (fuel + ps.length) k = ltReports listenfd fd fuel k' ∧
        etLoop fd (fuel + ps.length) k = etLoop fd fuel k' := by
  generalize hn : q.length = n
  induction n using Nat.strong_induction_on generalizing q k with
  | _ n ih =>
    by_cases hq : q = []
    · subst hq
      exact ⟨[], k, rfl, by simp, h, by simp, fun fuel => ⟨rfl, rfl⟩⟩
    · have hlt : (q.drop (bufferSize - 1)).length < n := by
        have hpos : 0 < q.length := List.length_pos_iff.mpr hq
        have : 1 ≤ bufferSize - 1 := by decide
        rw [List.length_drop]
        omega
      obtain ⟨k', hk', hcalls, hrun⟩ := read_step hfd h hq
      obtain ⟨ps, k'', hflat, hshort, hsock, hcalls', hrun'⟩ := ih _ hlt hk' rfl
      refine ⟨q.take (bufferSize - 1) :: ps, k'', ?_, ?_, hsock, ?_, fun fuel => ?_⟩
      · rw [List.flatten_cons, hflat, List.take_append_drop]
      · rw [List.forall_mem_cons]
        exact ⟨List.length_take_le .., hshort⟩
      · rw [hcalls', hcalls, List.flatMap_cons, List.append_assoc]
      · rw [List.length_cons, ← Nat.add_assoc, (hrun _).1, (hrun _).2]
        exact hrun' fuel

theorem pieces_append (a b : List Call) : pieces fd (a ++ b) = pieces fd a ++ pieces fd b :=
  List.filterMap_append

theorem pieces_rounds : pieces fd (ps.flatMap (roundCalls fd)) = ps := by
  induction ps with
  | nil => rfl
  | cons p ps ih =>
    rw [List.flatMap_cons, pieces_append, ih]
    simp [pieces, roundCalls, Call.piece]

theorem close_notMem_rounds : .close fd ∉ ps.flatMap (roundCalls fd) := by
  simp [roundCalls]

/-- What precedes the first `close` does not matter. -/
theorem orderly_append {a b : List Call} (h : .close fd ∉ a) : Orderly fd (a ++ b) ↔ Orderly fd b := by
  have ha : ∀ c ∈ a, c ≠ .close fd := fun c hc hclose => h (hclose ▸ hc)
  unfold Orderly
  rw [List.pairwise_append]
  constructor
  · intro hab
    exact hab.2.1
  · intro hb
    refine ⟨?_, hb, fun c hc d _ hclose => absurd hclose (ha c hc)⟩
    apply List.Pairwise.imp_of_mem (R := fun _ _ => True)
    · intro c d hc _ _ hclose
      exact absurd hclose (ha c hc)
    · exact List.pairwise_of_forall fun _ _ => trivial

/-- What is left to show about the calls behind the rounds with bytes. -/
theorem reads_of_rounds (hflat : ps.flatten = q) (hshort : ∀ p ∈ ps, p.length ≤ bufferSize - 1)
    (hp : pieces fd tail = []) (hc : tail.count (.close fd) = if shut then 1 else 0)
    (ho : Orderly fd tail) : Reads fd q shut (ps.flatMap (roundCalls fd) ++ tail) := by
  have hpieces : pieces fd (ps.flatMap (roundCalls fd) ++ tail) = ps := by
    rw [pieces_append, pieces_rounds, hp, List.append_nil]
  apply Reads.mk
  · rw [hpieces]
    exact hshort
  · rw [hpieces, hflat]
  · rw [List.count_append, List.count_eq_zero_of_not_mem close_notMem_rounds, Nat.zero_add, hc]
  · rw [orderly_append close_notMem_rounds]
    exact ho

/-- At the end of the queue `lt` closes the socket, or is not called again. -/
theorem ltReports_end (h : k.sockets fd = some ⟨[], shut⟩) (hfd : fd ≠ listenfd) (fuel : ℕ) :
    ∃ k', ltReports listenfd fd (fuel + 2) k = some k' ∧
      k'.calls = k.calls ++ if shut then [.recv fd .eof, .close fd] else [] := by
  have hread : k.readable fd = shut := by
    unfold Kernel.readable
    simp [h]
  cases shut with
  | false =>
    refine ⟨k, ?_, (List.append_nil _).symm⟩
    rw [ltReports, hread, if_neg Bool.false_ne_true]
  | true =>
    have hk := recv_open h (bufferSize - 1)
    refine ⟨(k.recv fd (bufferSize - 1)).2.close fd, ?_, ?_⟩
    · have hdone : ((k.recv fd (bufferSize - 1)).2.close fd).readable fd = false := by
        unfold Kernel.readable Kernel.close
        simp
      have hlt : lt listenfd [(fd, true)] k = (k.recv fd (bufferSize - 1)).2.close fd := by
        simp only [lt, List.foldl_cons, List.foldl_nil, ltEvent, if_neg hfd, if_true, hk]
        rfl
      rw [ltReports, hread, if_pos rfl, hlt, ltReports, hdone, if_neg Bool.false_ne_true]
    · simp only [close_calls, hk, List.append_assoc]
      rfl

/-- `et` goes on with `recv` after it closed the socket, and closes it again. -/
theorem etLoop_end (h : k.sockets fd = some ⟨[], shut⟩) (fuel : ℕ) :
    ∃ k', etLoop fd (fuel + 2) k = some k' ∧
      k'.calls = k.calls ++
        if shut then [.recv fd .eof, .close fd, .recv fd .error, .close fd] else [.recv fd .again] := by
  have hk := recv_open h (bufferSize - 1)
  cases shut with
  | false =>
    refine ⟨(k.recv fd (bufferSize - 1)).2, ?_, ?_⟩
    · rw [etLoop]
      simp only [hk]
      rfl
    · rw [hk]
      rfl
  | true =>
    have hclosed : ((k.recv fd (bufferSize - 1)).2.close fd).sockets fd = none := Function.update_self ..
    have hk' := recv_closed hclosed (bufferSize - 1)
    refine ⟨(((k.recv fd (bufferSize - 1)).2.close fd).recv fd (bufferSize - 1)).2.close fd, ?_, ?_⟩
    · have heof : etLoop fd (fuel + 2) k =
          etLoop fd (fuel + 1) ((k.recv fd (bufferSize - 1)).2.close fd) := by
        rw [etLoop]
        simp only [hk]
        rfl
      rw [heof, etLoop]
      simp only [hk']
    · rw [close_calls, hk']
      simp only [close_calls, hk, List.append_assoc]
      rfl

/-- More fuel does not change a result. -/
theorem etLoop_add {fuel : ℕ} {k' : Kernel} (h : etLoop fd fuel k = some k') (n : ℕ) :
    etLoop fd (fuel + n) k = some k' := by
  induction fuel generalizing k with
  | zero => simp [etLoop] at h
  | succ fuel ih =>
    rw [Nat.succ_add, etLoop]
    rw [etLoop] at h
    generalize k.recv fd (bufferSize - 1) = r at h ⊢
    match r with
    | (.again, _) => exact h
    | (.error, _) => exact h
    | (.eof, _) => exact ih h
    | (.data _, _) => exact ih h

theorem et_client (hfd : fd ≠ listenfd) (fuel : ℕ) :
    et fuel listenfd [(fd, true)] k = etLoop fd fuel k := by
  simp [et, etEvent, hfd]

/-- With the peer open, both readers end with the queue read. -/
theorem agree_open (hfd : fd ≠ listenfd) (hsock : k.sockets fd = some ⟨q, false⟩) (hcalls : k.calls = []) :
    Agree listenfd fd q false k := by
  obtain ⟨ps, k', hflat, hshort, hsock', hcalls', hrun⟩ := read_queue hfd hsock
  obtain ⟨k₁, hk₁, hcalls₁⟩ := ltReports_end hsock' hfd 0
  obtain ⟨k₂, hk₂, hcalls₂⟩ := etLoop_end hsock' 0
  rw [← (hrun _).1] at hk₁
  rw [← (hrun _).2, ← et_client hfd] at hk₂
  rw [hcalls', hcalls, List.nil_append] at hcalls₁ hcalls₂
  have hreads₁ : Reads fd q false k₁.calls := by
    rw [hcalls₁]
    exact reads_of_rounds hflat hshort rfl rfl List.Pairwise.nil
  have hreads₂ : Reads fd q false k₂.calls := by
    rw [hcalls₂]
    exact reads_of_rounds hflat hshort rfl rfl (List.pairwise_singleton _ _)
  refine ⟨_, k₁, k₂, hk₁, hk₂, ?_, hreads₁, hreads₂⟩
  rw [hcalls₁, hcalls₂, pieces_append, pieces_append]
  rfl

/-- With the peer shut down, the one result of `et` has two calls of `close`. -/
theorem not_agree_shut (hfd : fd ≠ listenfd) (hsock : k.sockets fd = some ⟨q, true⟩) (hcalls : k.calls = []) :
    ¬ Agree listenfd fd q true k := by
  intro hagree
  obtain ⟨fuel, -, k₂, -, hk₂, -, -, hreads⟩ := hagree
  obtain ⟨ps, k', -, -, hsock', hcalls', hrun⟩ := read_queue hfd hsock
  obtain ⟨k₃, hk₃, hcalls₃⟩ := etLoop_end hsock' 0
  rw [← (hrun _).2] at hk₃
  rw [hcalls', hcalls, List.nil_append] at hcalls₃
  have hsame : k₂ = k₃ := by
    rw [et_client hfd] at hk₂
    have h₃ := etLoop_add hk₃ fuel
    rw [Nat.add_comm, etLoop_add hk₂] at h₃
    exact Option.some.inj h₃
  have hcount := hreads.closes
  rw [hsame, hcalls₃, List.count_append, List.count_eq_zero_of_not_mem close_notMem_rounds] at hcount
  simp at hcount

end rounds

/-- Level-triggered and edge-triggered reading agree as long as the peer is open.  Once it has
shut down, `et` closes the socket without leaving its loop. -/
theorem agree_iff {k : Kernel} {listenfd fd : ℤ} {q : List UInt8} {shut : Bool} (hfd : fd ≠ listenfd)
    (hsock : k.sockets fd = some ⟨q, shut⟩) (hcalls : k.calls = []) :
    Agree listenfd fd q shut k ↔ shut = false := by
  cases shut with
  | false => exact iff_of_true (agree_open hfd hsock hcalls) rfl
  | true => exact iff_of_false (not_agree_shut hfd hsock hcalls) Bool.noConfusion

/-- A kernel with the client socket 5. -/
def kernel (q : List UInt8) (shut : Bool) : Kernel where
  sockets := Function.update (fun _ => none) 5 (some ⟨q, shut⟩)
  backlog := []
  interest := Function.update (fun _ => none) 5 (some true)
  calls := []

theorem agree_iff_twelve : Agree 3 5 (List.replicate 12 97) false (kernel (List.replicate 12 97) false) :=
  (agree_iff (by decide) rfl rfl).mpr rfl

/-- The peer has shut down without a byte, and `et` closes the socket twice. -/
theorem not_agree : ¬ ∀ (k : Kernel) (listenfd fd : ℤ) (q : List UInt8) (shut : Bool), fd ≠ listenfd →
    k.sockets fd = some ⟨q, shut⟩ → k.calls = [] → Agree listenfd fd q shut k := by
  intro h
  exact not_agree_shut (by decide) rfl rfl (h (kernel [] true) 3 5 [] true (by decide) rfl rfl)

end LinuxServer.LevelEdge
