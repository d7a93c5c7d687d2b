import LinuxServer.CString
import LinuxServer.Flow

/-!
# The client of `9-6_communication_client.cpp`

What is typed goes through a pipe to the server, and what the server sends is printed.  All
descriptors are blocking, and the client itself holds the end of the pipe it writes to.
`splice` does not fail.
-/

namespace LinuxServer.ChatClient
open CString

/-- `BUFFER_SIZE`. -/
def bufferSize : ℕ := 64

/-- The length passed to `splice`. -/
def spliceLen : ℕ := 32768

/-- Where the client is: in `poll`, in `recv` with the answer of `poll` about the standard
input, in one of the two `splice`s, or behind the loop. -/
inductive Pc
  | poll
  | recv (input : Bool)
  | fill
  | drain
  | done
  deriving DecidableEq, Repr

/-- The input and what becomes of it, and what the server sends and what becomes of that. -/
structure Client where
  stdin : List UInt8
  eof : Bool
  pipe : List UInt8
  sent : List UInt8
  inbox : List UInt8
  shut : Bool
  printed : List (Option (List UInt8))
  pc : Pc
  deriving DecidableEq, Repr

/-- What happens next.  `poll` comes with the answers `POLLRDHUP` and `POLLIN` for the server
and `POLLIN` for the input, `fill` and `drain` with the bytes moved. -/
inductive Input
  | type (bytes : List UInt8)
  | endInput
  | message (bytes : List UInt8)
  | hangUp
  | poll (rdhup server input : Bool)
  | recv
  | fill (n : ℕ)
  | drain (n : ℕ)
  deriving DecidableEq, Repr

def step (s : Client) : Input → Option Client
  | .type bytes => if s.eof then none else some { s with stdin := s.stdin ++ bytes }
  | .endInput => some { s with eof := true }
  | .message bytes => if s.shut then none else some { s with inbox := s.inbox ++ bytes }
  | .hangUp => some { s with shut := true }
  | .poll rdhup server input =>
    if s.pc = .poll then some { s with
      pc := if rdhup then .done else if server then .recv input else if input then .fill else .poll }
    else none
  | .recv =>
    match s.pc with
    | .recv input =>
      let bytes := s.inbox.take (bufferSize - 1)
      some { s with
        inbox := s.inbox.drop (bufferSize - 1)
        printed := s.printed ++ [str (bytes ++ List.replicate (bufferSize - bytes.length) 0) 0]
        pc := if input then .fill else .poll }
    | _ => none
  | .fill n =>
    if s.pc = .fill then some { s with
      stdin := s.stdin.drop n
      pipe := s.pipe ++ s.stdin.take n
      pc := .drain }
    else none
  | .drain n =>
    if s.pc = .drain ∧ s.pipe ≠ [] then some { s with
      pipe := s.pipe.drop n
      sent := s.sent ++ s.pipe.take n
      pc := .poll }
    else none

/-- What the system promises.  `poll` answers what is the case; `splice` moves something,
other than at the end of the input, and no more than there is. -/
def Legal (s : Client) : Input → Prop
  | .poll rdhup server input =>
    (rdhup = true → s.shut = true) ∧ (server = true → s.inbox ≠ [] ∨ s.shut = true) ∧
      (input = true → s.stdin ≠ [] ∨ s.eof = true)
  | .fill n => n ≤ spliceLen ∧ n ≤ s.stdin.length ∧ (n = 0 → s.stdin = [] ∧ s.eof = true)
  | .drain n => 0 < n ∧ n ≤ spliceLen ∧ n ≤ s.pipe.length
  | _ => True

instance (s : Client) : (i : Input) → Decidable (Legal s i)
  | .poll _ _ _ => inferInstanceAs (Decidable (_ ∧ _))
  | .fill _ => inferInstanceAs (Decidable (_ ∧ _))
  | .drain _ => inferInstanceAs (Decidable (_ ∧ _))
  | .type _ => isTrue trivial
  | .endInput => isTrue trivial
  | .message _ => isTrue trivial
  | .hangUp => isTrue trivial
  | .recv => isTrue trivial

/-- The client in front of its loop. -/
def start : Client where
  stdin := []
  eof := false
  pipe := []
  sent := []
  inbox := []
  shut := false
  printed := []
  pc := .poll

variable {s s' t : Client} {i : Input} {es : List Input}

/-- What a step does. -/
inductive Moved (s : Client) : Input → Client → Prop
  | type (bytes : List UInt8) : Moved s (.type bytes) { s with stdin := s.stdin ++ bytes }
  | endInput : Moved s .endInput { s with eof := true }
  | message (bytes : List UInt8) : Moved s (.message bytes) { s with inbox := s.inbox ++ bytes }
  | hangUp : Moved s .hangUp { s with shut := true }
  | poll (rdhup server input : Bool) (pc : Pc) (hpc : s.pc = .poll) (hne : pc ≠ .drain) :
      Moved s (.poll rdhup server input) { s with pc := pc }
  | recv (pc : Pc) (hpc : ∃ input, s.pc = .recv input) (hne : pc ≠ .drain) : Moved s .recv { s with
      inbox := s.inbox.drop (bufferSize - 1)
      printed := s.printed ++ [some (cstr (s.inbox.take (bufferSize - 1)))]
      pc := pc }
  | fill (n : ℕ) (hpc : s.pc = .fill) : Moved s (.fill n) { s with
      stdin := s.stdin.drop n
      pipe := s.pipe ++ s.stdin.take n
      pc := .drain }
  | drain (n : ℕ) (hpc : s.pc = .drain) (hpipe : s.pipe ≠ []) : Moved s (.drain n) { s with
      pipe := s.pipe.drop n
      sent := s.sent ++ s.pipe.take n
      pc := .poll }

theorem moved (h : step s i = some s') : Moved s i s' := by
  cases i with
  | type bytes =>
    simp only [step] at h
    split at h
    next => cases h
    next =>
      obtain rfl := Option.some.inj h
      exact .type bytes
  | endInput =>
    obtain rfl := Option.some.inj h
    exact .endInput
  | message bytes =>
    simp only [step] at h
    split at h
    next => cases h
    next =>
      obtain rfl := Option.some.inj h
      exact .message bytes
  | hangUp =>
    obtain rfl := Option.some.inj h
    exact .hangUp
  | poll rdhup server input =>
    simp only [step] at h
    split at h
    next hpc =>
      obtain rfl := Option.some.inj h
      refine .poll rdhup server input _ hpc ?_
      cases rdhup <;> cases server <;> cases input <;> simp
    next => cases h
  | recv =>
    simp only [step] at h
    split at h
    next input hpc =>
      obtain rfl := Option.some.inj h
      have hpos : 0 < bufferSize - (s.inbox.take (bufferSize - 1)).length := by
        have hlen := List.length_take_le (bufferSize - 1) s.inbox
        have : 1 ≤ bufferSize := by decide
        omega
      rw [str_zeros _ hpos]
      exact .recv _ ⟨input, hpc⟩ (by cases input <;> simp)
    next => cases h
  | fill n =>
    simp only [step] at h
    split at h
    next hpc =>
      obtain rfl := Option.some.inj h
      exact .fill n hpc
    next => cases h
  | drain n =>
    simp only [step] at h
    split at h
    next hpc =>
      obtain rfl := Option.some.inj h
      exact .drain n hpc.1 hpc.2
    next => cases h

/-! ## What is typed is sent -/

def typed (_ : Client) : Input → List UInt8
  | .type bytes => bytes
  | _ => []

theorem Moved.typed (h : Moved s i s') :
    s'.sent ++ s'.pipe ++ s'.stdin = s.sent ++ s.pipe ++ s.stdin ++ typed s i := by
  cases h with
  | type bytes => simp [ChatClient.typed]
  | endInput | message | hangUp | poll | recv => simp [ChatClient.typed]
  | fill n hpc => simp [ChatClient.typed]
  | drain n hpc hpipe =>
    have hsplit := List.take_append_drop n s.pipe
    simp only [ChatClient.typed, List.append_assoc, List.append_nil]
    rw [← List.append_assoc (s.pipe.take n), hsplit]

/-- In every run, what was sent to the server, what is in the pipe and what is still to be
read are all that was typed, in order. -/
theorem typed_in_order (hrun : Exec Legal step s es t) :
    t.sent ++ t.pipe ++ t.stdin = s.sent ++ s.pipe ++ s.stdin ++ brought step typed s es :=
  hrun.brings (fun s => s.sent ++ s.pipe ++ s.stdin) (I := fun _ => True) (fun _ _ _ _ _ _ => trivial)
    (fun _ _ _ _ _ hstep => (moved hstep).typed) trivial

/-- Two bytes are typed while the first is on its way. -/
theorem typed_in_order_two : ∃ s : Client, s.sent ++ s.pipe ++ s.stdin = [104, 105] := by
  let es : List Input := [.type [104], .poll false false true, .fill 1, .type [105], .drain 1]
  let s := (play Legal step start es).get (by decide)
  have hrun : Exec Legal step start es s := exec_of_play (Option.some_get _).symm
  exact ⟨s, typed_in_order hrun⟩

/-! ## What the server sends is printed -/

def delivered (_ : Client) : Input → List UInt8
  | .message bytes => bytes
  | _ => []

/-- The text of all lines printed, without the newline that each `printf` puts behind it. -/
def Client.text (s : Client) : List UInt8 := (s.printed.map fun line => line.getD []).flatten

theorem Moved.text (h : Moved s i s') (h0 : 0 ∉ s.inbox) :
    s'.text ++ s'.inbox = s.text ++ s.inbox ++ delivered s i := by
  cases h with
  | message bytes => simp [delivered, Client.text]
  | recv pc hpc =>
    have hcstr := cstr_of_notMem fun hm => h0 (List.mem_of_mem_take (i := bufferSize - 1) hm)
    simp [delivered, Client.text, hcstr]
  | type | endInput | hangUp | poll | fill | drain => simp [delivered, Client.text]

/-- Without NULs in what the server sends, all of it is printed in order, but for what has
not been received. -/
theorem all_printed (hrun : Exec (fun s i => Legal s i ∧ 0 ∉ delivered s i) step s es t) (h0 : 0 ∉ s.inbox) :
    t.text ++ t.inbox = s.text ++ s.inbox ++ brought step delivered s es := by
  refine hrun.brings (fun s => s.text ++ s.inbox) (I := fun s => 0 ∉ s.inbox)
    (fun s i s' hi hok hstep => ?_) (fun s i s' hi _ hstep => (moved hstep).text hi) h0
  cases moved hstep with
  | message bytes =>
    have hbytes : 0 ∉ bytes := hok.2
    simp [hi, hbytes]
  | recv pc hpc => exact fun hm => hi (List.mem_of_mem_drop hm)
  | type | endInput | hangUp | poll | fill | drain => exact hi

/-- A message of three bytes is printed. -/
theorem all_printed_three : ∃ s : Client, s.text ++ s.inbox = [104, 105, 10] := by
  let es : List Input := [.message [104, 105], .poll false true false, .recv, .message [10]]
  let s := (play (fun s i => Legal s i ∧ 0 ∉ delivered s i) step start es).get (by decide)
  have hrun : Exec (fun s i => Legal s i ∧ 0 ∉ delivered s i) step start es s :=
    exec_of_play (Option.some_get _).symm
  exact ⟨s, all_printed hrun (by decide)⟩

/-! ## The end of the input -/

/-- The client is in its second `splice`, with nothing in the pipe. -/
def Hung (s : Client) : Prop := s.pc = .drain ∧ s.pipe = []

/-- Nothing can be done about it. -/
theorem Hung.forever (h : Hung s) (hrun : Exec Legal step s es t) :
    Hung t ∧ t.printed = s.printed ∧ t.sent = s.sent := by
  refine hrun.invariant (I := fun t => Hung t ∧ t.printed = s.printed ∧ t.sent = s.sent)
    (fun t i t' hi _ hstep => ?_) ⟨h, rfl, rfl⟩
  obtain ⟨⟨hpc, hpipe⟩, hprinted, hsent⟩ := hi
  cases moved hstep with
  | type | endInput | message | hangUp => exact ⟨⟨hpc, hpipe⟩, hprinted, hsent⟩
  | poll rdhup server input pc hpc' => cases hpc.symm.trans hpc'
  | recv pc hpc' =>
    obtain ⟨input, hpc'⟩ := hpc'
    cases hpc.symm.trans hpc'
  | fill n hpc' => cases hpc.symm.trans hpc'
  | drain n hpc' hne => exact absurd hpipe hne

/-- The second `splice` moves all there is. -/
def Whole (s : Client) : Input → Prop
  | .drain n => n = s.pipe.length
  | _ => True

instance (s : Client) : (i : Input) → Decidable (Whole s i)
  | .drain _ => inferInstanceAs (Decidable (_ = _))
  | .poll _ _ _ => isTrue trivial
  | .fill _ => isTrue trivial
  | .type _ => isTrue trivial
  | .endInput => isTrue trivial
  | .message _ => isTrue trivial
  | .hangUp => isTrue trivial
  | .recv => isTrue trivial

/-- In every run in which the second `splice` moves all there is: once the first one has seen
the end of the input, the client hangs for good, and prints nothing more; and it never hangs
before. -/
theorem hangs_at_end (hrun : Exec (fun s i => Legal s i ∧ Whole s i) step start es s) :
    (.fill 0 ∈ es → Hung s ∧ ∀ es' t, Exec Legal step s es' t → t.printed = s.printed ∧ t.sent = s.sent) ∧
      (.fill 0 ∉ es → ¬ Hung s) := by
  obtain ⟨hin, hout⟩ := hrun.history (I := fun es s => (s.pc = .drain → (s.pipe = [] ↔ .fill 0 ∈ es)) ∧
      (s.pc ≠ .drain → s.pipe = [] ∧ .fill 0 ∉ es))
    (fun es s i s' hi hok hstep => by
      obtain ⟨hin, hout⟩ := hi
      cases moved hstep with
      | type | endInput | message | hangUp => simpa using ⟨hin, hout⟩
      | poll rdhup server input pc hpc hne =>
        have hs := hout (by simp [hpc])
        simpa [hne] using hs
      | recv pc hpc hne =>
        obtain ⟨input, hpc⟩ := hpc
        have hs := hout (by simp [hpc])
        simpa [hne] using hs
      | fill n hpc =>
        obtain ⟨hpipe, hno⟩ := hout (by simp [hpc])
        obtain ⟨⟨-, hle, -⟩, -⟩ := hok
        have hzero : s.stdin.take n = [] ↔ n = 0 := by
          rw [← List.length_eq_zero_iff, List.length_take_of_le hle]
        simp [hpipe, hno, hzero, eq_comm]
      | drain n hpc hpipe =>
        have hwhole : n = s.pipe.length := hok.2
        have hpos : n ≠ 0 := by
          rw [hwhole]
          exact mt List.length_eq_zero_iff.mp hpipe
        have hno : .fill 0 ∉ es := fun hm => hpipe ((hin hpc).mpr hm)
        simp [hwhole, hno])
    (by simp [start])
  constructor
  · intro hm
    have hpc : s.pc = .drain := by
      by_contra hpc
      exact (hout hpc).2 hm
    have hhung : Hung s := ⟨hpc, (hin hpc).mpr hm⟩
    exact ⟨hhung, fun es' t hrun' => (hhung.forever hrun').2⟩
  · intro hno hhung
    exact hno ((hin hhung.1).mp hhung.2)

/-- A line is typed, then the input ends. -/
theorem hangs_at_end_line : ∃ s, Hung s ∧ s.sent = [104, 10] := by
  let es : List Input := [.type [104, 10], .poll false false true, .fill 2, .drain 2, .endInput,
    .poll false false true, .fill 0]
  let s := (play (fun s i => Legal s i ∧ Whole s i) step start es).get (by decide)
  have hrun : Exec (fun s i => Legal s i ∧ Whole s i) step start es s := exec_of_play (Option.some_get _).symm
  exact ⟨s, ((hangs_at_end hrun).1 (by decide)).1, by decide⟩

end LinuxServer.ChatClient
