import LinuxServer.HttpBounds
import LinuxServer.Runs

/-!
# The receive loop of `8-3_finite_stage_machine.cpp`

`main` from the accepted connection on.  What the client sends comes to the queue of the
socket in any pieces and at any time, and each `recv` takes any part of it that fits
behind what was read before.  A `recv` with no room left returns 0, as one at the end of
the stream does.
-/

namespace LinuxServer.HttpServer
open Http

/-- `szret`. -/
def szret : HttpCode → String
  | .getRequest => "I get a correct result\n"
  | _ => "Something wrong\n"

/-- What `main` sends for a result of `parse_content`. -/
def answer (result : HttpCode) : List String := if result = .noRequest then [] else [szret result]

/-- Why the loop was left: `reading failed`, `remote client has closed the connection`, or
an answer was sent. -/
inductive Ending
  | readingFailed
  | remoteClosed
  | answered
  deriving DecidableEq, Repr

/-- The local variables of `main`, the receive queue of `fd` and whether its peer has
closed, and what was sent. -/
structure Server where
  parser : Parser
  queue : List UInt8
  closed : Bool
  sent : List String
  ending : Option Ending
  deriving DecidableEq, Repr

inductive Event
  | arrive (bytes : List UInt8)
  | close
  | recv (n : ℕ)
  | recvFails
  deriving DecidableEq, Repr

/-- In front of the loop. -/
def init : Server where
  parser := start
  queue := []
  closed := false
  sent := []
  ending := none

/-- An iteration of the loop in which `recv` returns `n` bytes. -/
def Server.recv (n : ℕ) (s : Server) : Option Server :=
  if n = 0 then some { s with ending := some .remoteClosed }
  else do
    let parser ← Http.recv s.parser (s.queue.take n)
    let (result, parser) ← parseContent parser
    let s := { s with parser := parser, queue := s.queue.drop n }
    if result = .noRequest then some s
    else some { s with sent := s.sent ++ [szret result], ending := some .answered }

def step (s : Server) : Event → Option Server
  | .arrive bytes => some { s with queue := s.queue ++ bytes }
  | .close => some { s with closed := true }
  | .recv n => if s.ending = none then s.recv n else none
  | .recvFails => if s.ending = none then some { s with ending := some .readingFailed } else none

/-- How many bytes `main` asks for: `BUFFER_SIZE - read_index`. -/
def Server.room (s : Server) : ℕ := bufferSize - s.parser.readIndex

/-- What the system promises: nothing follows the end of the stream, and `recv` returns
bytes that are there and were asked for, and none only at the end or if none were. -/
def Legal (s : Server) : Event → Prop
  | .arrive _ => s.closed = false
  | .close => True
  | .recv n => n ≤ s.queue.length ∧ n ≤ s.room ∧ (n = 0 → s.room = 0 ∨ s.queue = [] ∧ s.closed = true)
  | .recvFails => True

instance (s : Server) : (e : Event) → Decidable (Legal s e)
  | .arrive _ => inferInstanceAs (Decidable (_ = _))
  | .close => isTrue trivial
  | .recv _ => inferInstanceAs (Decidable (_ ∧ _))
  | .recvFails => isTrue trivial

/-- All that the client has sent. -/
def arrived (es : List Event) : List UInt8 := es.flatMap fun e => match e with
  | .arrive bytes => bytes
  | _ => []

/-- The iterations of the loop. -/
def Event.isRecv : Event → Bool
  | .recv _ => true
  | .recvFails => true
  | _ => false

theorem arrived_snoc (es : List Event) (e : Event) : arrived (es ++ [e]) = arrived es ++ arrived [e] :=
  List.flatMap_append

variable {s s' : Server} {es : List Event} {e : Event}

/-- The scanner after the bytes `c`. -/
def scan (c : List UInt8) : Scan := c.foldl feed Scan.start

/-- The loop has read `c` and goes on. -/
structure Reading (s : Server) (c : List UInt8) : Prop where
  pending : ∃ tail, Pending s.parser (scan c) [] tail
  ready : Ready s.parser
  readIndex : s.parser.readIndex = c.length
  sent : s.sent = []

/-- The loop has read `c`, and `queue` is left of what came. -/
structure Stage (es : List Event) (s : Server) (c : List UInt8) : Prop where
  stream : arrived es = c ++ s.queue
  length : c.length ≤ bufferSize
  printed : s.parser.printed = (scan c).printed
  running : s.ending = none → Reading s c
  answered : s.ending = some .answered → (scan c).code ≠ .noRequest ∧ s.sent = [szret (scan c).code]
  closed : s.ending = some .remoteClosed → (scan c).code = .noRequest ∧ s.sent = [] ∧
    (c.length = bufferSize ∨ s.queue = [] ∧ s.closed = true)
  failed : s.ending = some .readingFailed → s.sent = []
  turns : es.countP Event.isRecv ≤ c.length + if s.ending = none then 0 else 1

theorem scan_append (c d : List UInt8) : scan (c ++ d) = d.foldl feed (scan c) := List.foldl_append

theorem scan_done {c : List UInt8} (h : (scan c).code ≠ .noRequest) (d : List UInt8) :
    scan (c ++ d) = scan c := by
  rw [scan_append, feed_done h]

/-- What comes while the loop is left alone. -/
theorem Stage.arrive {c : List UInt8} (h : Stage es s c) (bytes : List UInt8) (hok : s.closed = false) :
    Stage (es ++ [.arrive bytes]) { s with queue := s.queue ++ bytes } c := by
  refine ⟨?_, h.length, h.printed, fun he => ?_, h.answered, fun he => ?_, h.failed, ?_⟩
  · rw [arrived_snoc, h.stream]
    simp [arrived]
  · exact ⟨(h.running he).pending, (h.running he).ready, (h.running he).readIndex, (h.running he).sent⟩
  · obtain ⟨hcode, hsent, hfull | ⟨-, hclosed⟩⟩ := h.closed he
    · exact ⟨hcode, hsent, .inl hfull⟩
    · rw [hok] at hclosed
      cases hclosed
  · simpa [Event.isRecv] using h.turns

/-- An iteration of the loop, which always comes to an end inside the buffer. -/
theorem Stage.recv {c : List UInt8} {n : ℕ} (h : Stage es s c) (hrun : s.ending = none)
    (hok : Legal s (.recv n)) (hn : n ≠ 0) :
    ∃ s', s.recv n = some s' ∧ Stage (es ++ [.recv n]) s' (c ++ s.queue.take n) ∧
      (s'.ending = none ∨ s'.ending = some .answered) := by
  obtain ⟨⟨tail, hp⟩, hready, hread, hsent⟩ := h.running hrun
  obtain ⟨hqueue, hroom, -⟩ := hok
  have htake : (s.queue.take n).length = n := by
    rw [List.length_take]
    omega
  have hfits : s.parser.readIndex + (s.queue.take n).length ≤ bufferSize := by
    have := hready.toBounded.readIndex
    unfold Server.room at hroom
    omega
  have hbuf : s.parser.readIndex + (s.queue.take n).length ≤ s.parser.buffer.length := by
    rw [hready.toBounded.length]
    exact hfits
  obtain ⟨p, hrecv, hp1⟩ := hp.recv hbuf
  obtain ⟨p', hrecv', hready1, hread1⟩ := hready.recv hfits
  obtain rfl : p = p' := Option.some.inj (hrecv.symm.trans hrecv')
  obtain ⟨q, hparse, htracks, hpending⟩ := parseContent_spec hp1
  obtain ⟨result, q', hparse', -, -, hready2⟩ := hready1.parseContent
  rw [hparse, Option.some.injEq, Prod.mk.injEq] at hparse'
  obtain ⟨rfl, rfl⟩ := hparse'
  rw [← scan_append] at hparse htracks hpending hready2
  have hstream : arrived (es ++ [.recv n]) = c ++ s.queue.take n ++ s.queue.drop n := by
    have hnone : arrived [.recv n] = [] := rfl
    rw [arrived_snoc, hnone, List.append_nil, h.stream, List.append_assoc, List.take_append_drop]
  have hlength : (c ++ s.queue.take n).length ≤ bufferSize := by
    rw [List.length_append]
    omega
  have hturns : (es ++ [Event.recv n]).countP Event.isRecv ≤ (c ++ s.queue.take n).length := by
    have := h.turns
    rw [if_pos hrun] at this
    rw [List.countP_append, List.length_append, htake]
    simp [Event.isRecv]
    omega
  generalize hd : c ++ s.queue.take n = d at *
  unfold Server.recv
  simp only [if_neg hn, hrecv, hparse, Option.bind_eq_bind, Option.bind_some]
  by_cases hcode : (scan d).code = .noRequest
  · obtain ⟨hready2, -, hread2⟩ := hready2 hcode
    rw [if_pos hcode]
    refine ⟨_, rfl, ⟨hstream, hlength, htracks.printed, fun _ => ⟨⟨_, hpending hcode⟩, hready2, ?_, hsent⟩,
      ?_, ?_, ?_, hturns.trans (Nat.le_add_right _ _)⟩, .inl hrun⟩
    · rw [hread2, hread1, hread, ← hd, List.length_append]
    · intro he
      exact absurd (hrun.symm.trans he) (by simp)
    · intro he
      exact absurd (hrun.symm.trans he) (by simp)
    · intro he
      exact absurd (hrun.symm.trans he) (by simp)
  · rw [if_neg hcode]
    refine ⟨_, rfl, ⟨hstream, hlength, htracks.printed, ?_, fun _ => ⟨hcode, ?_⟩, ?_, ?_,
      hturns.trans (Nat.le_add_right _ _)⟩, .inr rfl⟩
    · intro he
      cases he
    · simp [hsent]
    · intro he
      cases he
    · intro he
      cases he

theorem Stage.step {c : List UInt8} (h : Stage es s c) (hok : Legal s e)
    (hstep : HttpServer.step s e = some s') : ∃ d, Stage (es ++ [e]) s' d := by
  have hquiet : ∀ e, arrived [e] = [] → arrived (es ++ [e]) = c ++ s.queue := by
    intro e he
    rw [arrived_snoc, he, List.append_nil, h.stream]
  have hlast : s.ending = none → ∀ e, (es ++ [e]).countP Event.isRecv ≤ c.length + 1 := by
    intro hrun e
    have hturns := h.turns
    have hone : [e].countP Event.isRecv ≤ 1 := List.countP_le_length
    rw [if_pos hrun] at hturns
    rw [List.countP_append]
    omega
  cases e with
  | arrive bytes =>
    obtain rfl := by simpa [HttpServer.step] using hstep
    exact ⟨c, h.arrive bytes hok⟩
  | close =>
    obtain rfl := by simpa [HttpServer.step] using hstep
    refine ⟨c, hquiet _ rfl, h.length, h.printed, fun he => ?_, h.answered, fun he => ?_, h.failed, ?_⟩
    · exact ⟨(h.running he).pending, (h.running he).ready, (h.running he).readIndex, (h.running he).sent⟩
    · obtain ⟨hcode, hsent, hfull | ⟨hnil, -⟩⟩ := h.closed he
      · exact ⟨hcode, hsent, .inl hfull⟩
      · exact ⟨hcode, hsent, .inr ⟨hnil, rfl⟩⟩
    · simpa [Event.isRecv] using h.turns
  | recv n =>
    obtain ⟨hrun, hrecv⟩ : s.ending = none ∧ s.recv n = some s' := by simpa [HttpServer.step] using hstep
    by_cases hn : n = 0
    · obtain rfl : { s with ending := some .remoteClosed } = s' := by
        rw [Server.recv, if_pos hn] at hrecv
        exact Option.some.inj hrecv
      obtain ⟨⟨tail, hp⟩, -, hread, hsent⟩ := h.running hrun
      refine ⟨c, hquiet _ rfl, h.length, h.printed, by simp, by simp, fun _ => ⟨hp.code, hsent, ?_⟩, by simp,
        hlast hrun _⟩
      refine (hok.2.2 hn).imp_left fun hroom => ?_
      have := h.length
      unfold Server.room at hroom
      omega
    · obtain ⟨t, ht, hstage, -⟩ := h.recv hrun hok hn
      obtain rfl : t = s' := Option.some.inj (ht.symm.trans hrecv)
      exact ⟨_, hstage⟩
  | recvFails =>
    obtain ⟨hrun, rfl⟩ : s.ending = none ∧ { s with ending := some .readingFailed } = s' := by
      simpa [HttpServer.step] using hstep
    exact ⟨c, hquiet _ rfl, h.length, h.printed, by simp, by simp, by simp, fun _ => (h.running hrun).sent,
      hlast hrun _⟩

theorem stage_init : Stage [] init [] :=
  ⟨rfl, Nat.zero_le _, rfl, fun _ => ⟨⟨_, pending_start⟩, ready_start, rfl, rfl⟩, by simp [init], by simp [init],
    by simp [init], Nat.zero_le _⟩

theorem stage_run (hrun : Exec Legal step init es s) : ∃ c, Stage es s c :=
  hrun.history (I := fun es s => ∃ c, Stage es s c)
    (fun _ _ _ _ ⟨_, hc⟩ hok hstep => hc.step hok hstep) ⟨[], stage_init⟩

/-- What of the stream counts. -/
def head (es : List Event) : List UInt8 := (arrived es).take bufferSize

/-- A loop that has ended has the result of the first bytes of the stream, wherever it
stopped reading. -/
theorem Stage.verdict {c : List UInt8} (h : Stage es s c)
    (hend : s.ending = some .answered ∨ s.ending = some .remoteClosed) :
    scan (head es) = scan c ∧ s.sent = answer (scan c).code := by
  have hhead : head es = c ++ s.queue.take (bufferSize - c.length) := by
    rw [head, h.stream, List.take_append, List.take_of_length_le h.length]
  rcases hend with he | he
  · obtain ⟨hcode, hsent⟩ := h.answered he
    rw [hhead, scan_done hcode, answer, if_neg hcode]
    exact ⟨rfl, hsent⟩
  · obtain ⟨hcode, hsent, hall⟩ := h.closed he
    have hnil : s.queue.take (bufferSize - c.length) = [] := by
      rcases hall with hfull | ⟨hnil, -⟩
      · simp [hfull]
      · simp [hnil]
    rw [hhead, hnil, List.append_nil, answer, if_pos hcode]
    exact ⟨rfl, hsent⟩

/-- However the stream comes and whatever its length, the loop does not leave the buffer
and takes few turns, and once it has ended otherwise than by a failing `recv` it has sent
what one call of `parse_content` on the first `BUFFER_SIZE` bytes asks for, and printed
the same. -/
theorem connection_served (hrun : Exec Legal step init es s) :
    es.countP Event.isRecv ≤ bufferSize + 1 ∧
    (s.ending = none → ∀ n, Legal s (.recv n) → ∃ s', step s (.recv n) = some s') ∧
    (s.ending = some .readingFailed → s.sent = []) ∧
    (s.ending = some .answered ∨ s.ending = some .remoteClosed →
      ∃ result p, (Http.recv start (head es)).bind parseContent = some (result, p) ∧
        s.sent = answer result ∧ s.parser.printed = p.printed) := by
  obtain ⟨c, h⟩ := stage_run hrun
  refine ⟨?_, fun he n hok => ?_, h.failed, fun hend => ?_⟩
  · have hturns := h.turns
    have hlength := h.length
    split at hturns <;> omega
  · rw [step, if_pos he]
    by_cases hn : n = 0
    · exact ⟨_, if_pos hn⟩
    · obtain ⟨s', hs, -, -⟩ := h.recv he hok hn
      exact ⟨s', hs⟩
  · have hlen : (head es).length ≤ bufferSize := List.length_take_le _ _
    obtain ⟨p, hp, ht⟩ := parseContent_whole hlen
    obtain ⟨hscan, hsent⟩ := h.verdict hend
    refine ⟨_, p, hp, ?_, ?_⟩
    · rw [hsent, ← hscan]
      rfl
    · rw [h.printed, ht.printed, ← hscan]
      rfl

/-- A request that comes at once and is read at once. -/
theorem exists_answered {c : List UInt8} (hfit : c.length ≤ bufferSize) (hcode : (scan c).code ≠ .noRequest) :
    ∃ s, Exec Legal step init [.arrive c, .recv c.length] s ∧ s.ending = some .answered := by
  let s : Server := { init with queue := init.queue ++ c }
  have hstage : Stage ([] ++ [.arrive c]) s [] := stage_init.arrive c rfl
  have hqueue : s.queue = c := rfl
  have hne : c.length ≠ 0 := by
    intro h
    rw [List.length_eq_zero_iff.mp h] at hcode
    exact hcode rfl
  have hok : Legal s (.recv c.length) := by
    refine ⟨le_of_eq (by rw [hqueue]), ?_, fun h => absurd h hne⟩
    exact hfit
  obtain ⟨t, ht, hstage', hend⟩ := hstage.recv rfl hok hne
  have hrunning : s.ending = none := rfl
  have hstep : step s (.recv c.length) = some t := by rw [step, if_pos hrunning, ht]
  refine ⟨t, .cons rfl rfl (.cons hok hstep (.nil t)), ?_⟩
  rcases hend with he | he
  · obtain ⟨tail, hp⟩ := (hstage'.running he).pending
    have := hp.code
    rw [hqueue, List.take_length, List.nil_append] at this
    exact absurd this hcode
  · exact he

/-- A line that is no request. -/
theorem connection_served_bad : ∃ s, Exec Legal step init [.arrive [71, cr, 71], .recv 3] s ∧
    ∃ result p, (Http.recv start (head [.arrive [71, cr, 71], .recv 3])).bind parseContent = some (result, p) ∧
      s.sent = answer result ∧ s.parser.printed = p.printed := by
  have hcode : (scan [71, cr, 71]).code ≠ .noRequest := by decide
  obtain ⟨s, hrun, hend⟩ := exists_answered (c := [71, cr, 71]) (by decide) hcode
  exact ⟨s, hrun, (connection_served hrun).2.2.2 (.inl hend)⟩

end LinuxServer.HttpServer
