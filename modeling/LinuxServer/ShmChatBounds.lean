import LinuxServer.ShmChatMessages

/-!
# The bounds of the shared memory

The mapping has `USER_LIMIT * BUFFER_SIZE` bytes.  A child is forked with a number below
`USER_LIMIT` and keeps it, and every number on its way is that of a child.
-/

namespace LinuxServer.ShmChat

variable {s s' : Server} {k : ℕ} {n : Notification} {e : Event}

/-- A range of the shared memory that a call is given: its first byte and its length. -/
structure Access where
  start : ℤ
  length : ℕ
  deriving DecidableEq, Repr

def Access.covers (b : Access) (a : ℤ) : Prop := b.start ≤ a ∧ a < b.start + b.length

/-- What the `memset`, `recv` or `send` of the next statement is given. -/
def ChildPc.accesses (idx : ℤ) : ChildPc → List Access
  | .batch (.conn :: _) => [⟨idx * bufferSize, bufferSize⟩]
  | .cleared _ => [⟨idx * bufferSize, bufferSize - 1⟩]
  | .got n _ => [⟨n.client * bufferSize, bufferSize⟩]
  | _ => []

/-- Only children use the shared memory. -/
def accesses (s : Server) : Event → List Access
  | .childStep k _ => (s.child k).pc.accesses (s.child k).idx
  | _ => []

/-- Every child that was forked has a number below the limit. -/
def Numbered (s : Server) : Prop := ∀ k < s.forked, 0 ≤ (s.child k).idx ∧ (s.child k).idx < userLimit

/-- A new child gets the number `user_count`, which the parent has compared with the limit. -/
theorem numbered_step (h : Numbered s) (hr : Roster s) (hok : Legal s e) (hstep : step s e = some s') :
    Numbered s' := by
  have hold : s'.forked ≤ s.forked → Numbered s' := by
    intro hle k hk
    rw [(idx_step hr hok hstep).2 k (hk.trans_le hle)]
    exact h k (hk.trans_le hle)
  cases roster_move hstep with
  | same e s' hs => exact hold (Nat.le_of_eq hs.forked)
  | forkFails connfd pipefd0 pipefd1 s' _ hs => exact hold (Nat.le_of_eq hs.forked)
  | join connfd pipefd0 pipefd1 pid s' hcount hs =>
    intro k hk
    by_cases hkf : k = s.forked
    · subst hkf
      have hidx : (s'.child s.forked).idx = s.userCount := by
        rw [hs.idx]
        exact congrArg Child.idx (joined_child_self connfd pipefd0 pipefd1 pid)
      rw [hidx]
      exact ⟨hr.count, hcount⟩
    · have hforked : s'.forked = s.forked + 1 := hs.forked
      have hlt : k < s.forked := by omega
      rw [(idx_step hr hok hstep).2 k hlt]
      exact h k hlt
  | reap k =>
    apply hold
    rw [reap_eq hr (unreaped_of_zombie hok.1 hok.2)]
    exact Nat.le_refl _

theorem numbered_reach (h : Reach Init Legal step s) : Numbered s := by
  have := h.invariant (I := fun s => Roster s ∧ Numbered s)
    (fun s hi => ⟨roster_init hi, fun k hk => by
      obtain ⟨-, -, -, -, -, -, -, -, -, -, -, hforked, -⟩ := hi
      omega⟩)
    fun s e s' hi hok hs => ⟨roster_step hi.1 hok hs, numbered_step hi.2 hi.1 hok hs⟩
  exact this.2

theorem client_reach (h : Reach Init Legal step s) (hn : InFlight s n) :
    0 ≤ n.client ∧ n.client < userLimit := by
  have hg := good_reach h hn
  rw [hg.client]
  exact numbered_reach h _ hg.origin

/-- A segment with a number below the limit lies inside the mapping. -/
theorem segment_inside {i : ℤ} {m : ℕ} (h0 : 0 ≤ i) (hi : i < userLimit) (hm : m ≤ bufferSize) :
    0 ≤ i * bufferSize ∧ i * bufferSize + m ≤ userLimit * bufferSize := by
  simp only [userLimit, bufferSize] at hi hm ⊢
  omega

theorem accesses_inside (h : Reach Init Legal step s) (hok : Legal s e) {b : Access}
    (hb : b ∈ accesses s e) : 0 ≤ b.start ∧ b.start + b.length ≤ userLimit * bufferSize := by
  cases e with
  | childStep k ok =>
    have hidx := numbered_reach h k hok
    simp only [accesses] at hb
    match hpc : (s.child k).pc with
    | .batch (.conn :: rest) =>
      obtain rfl : b = ⟨(s.child k).idx * bufferSize, bufferSize⟩ := by simpa [hpc, ChildPc.accesses] using hb
      exact segment_inside hidx.1 hidx.2 (Nat.le_refl _)
    | .cleared rest =>
      obtain rfl : b = ⟨(s.child k).idx * bufferSize, bufferSize - 1⟩ := by
        simpa [hpc, ChildPc.accesses] using hb
      exact segment_inside hidx.1 hidx.2 (Nat.sub_le _ _)
    | .got n rest =>
      obtain rfl : b = ⟨n.client * bufferSize, bufferSize⟩ := by simpa [hpc, ChildPc.accesses] using hb
      have hn := client_reach h (.inl ⟨k, .inr (.inr ⟨rest, hpc⟩)⟩)
      exact segment_inside hn.1 hn.2 (Nat.le_refl _)
    | .batch [] | .batch (.pipe :: _) | .loop | .wait | .received _ | .zombie | .reaped =>
      simp [hpc, ChildPc.accesses] at hb
  | _ => cases hb

/-- A `recv` stores no more than it is given room for. -/
theorem recv_frame {rest : List ChildFd} {ok : Bool} (hpc : (s.child k).pc = .cleared rest)
    (h : s.childStep k ok = some s') {a : ℤ}
    (ha : ¬ Access.covers ⟨(s.child k).idx * bufferSize, bufferSize - 1⟩ a) :
    s'.shareMem a = s.shareMem a := by
  simp only [Server.childStep, hpc] at h
  split at h
  · cases h
    rfl
  · split at h
    · cases h
      rfl
    · cases h
      apply if_neg
      intro hin
      apply ha
      have hlen := List.length_take_le (bufferSize - 1) (s.child k).conn.queue
      refine ⟨hin.1, hin.2.trans_le ?_⟩
      simp only
      omega

/-- A step writes to the ranges of its calls only. -/
theorem step_frame (h : step s e = some s') {a : ℤ} (ha : ∀ b ∈ accesses s e, ¬ b.covers a) :
    s'.shareMem a = s.shareMem a := by
  rcases step_quiet h with hq | ⟨k, ok, rfl, hm⟩
  · exact congrFun (congrArg Prod.fst hq.1) a
  · simp only [accesses] at ha
    cases hm with
    | clear rest hpc =>
      rw [hpc] at ha
      exact if_neg (ha _ (List.mem_singleton.mpr rfl))
    | recvData rest bytes hpc hlen =>
      rw [hpc] at ha
      exact recv_frame hpc h (ha _ (List.mem_singleton.mpr rfl))
    | _ => rfl

/-- What a step sends to a client is one of its ranges. -/
theorem step_sends (h : step s e = some s') : s'.delivered = s.delivered ∨
    ∃ d, s'.delivered = s.delivered ++ [d] ∧ ∃ b ∈ accesses s e, b.length = bufferSize ∧
      ∀ p : Fin bufferSize, d.bytes p = s.shareMem (b.start + p.val) := by
  rcases step_quiet h with hq | ⟨k, ok, rfl, hm⟩
  · exact .inl hq.2
  · simp only [accesses]
    cases hm with
    | deliver n rest hpc =>
      right
      rw [hpc]
      exact ⟨_, rfl, _, List.mem_singleton.mpr rfl, rfl, fun _ => rfl⟩
    | _ => exact .inl rfl

/-- In every run the numbers of the children and those on their way are below the limit, and
what a step reads and writes of the shared memory lies inside the mapping. -/
theorem shareMem_bounds (h : Reach Init Legal step s) :
    (∀ k < s.forked, 0 ≤ (s.child k).idx ∧ (s.child k).idx < userLimit) ∧
    (∀ n, InFlight s n → 0 ≤ n.client ∧ n.client < userLimit) ∧
    ∀ e s', Legal s e → step s e = some s' →
      (∀ b ∈ accesses s e, 0 ≤ b.start ∧ b.start + b.length ≤ userLimit * bufferSize) ∧
      (∀ a, (∀ b ∈ accesses s e, ¬ b.covers a) → s'.shareMem a = s.shareMem a) ∧
      (s'.delivered = s.delivered ∨
        ∃ d, s'.delivered = s.delivered ++ [d] ∧ ∃ b ∈ accesses s e, b.length = bufferSize ∧
          ∀ p : Fin bufferSize, d.bytes p = s.shareMem (b.start + p.val)) := by
  refine ⟨numbered_reach h, fun n hn => client_reach h hn, fun e s' hok hstep => ⟨?_, ?_, ?_⟩⟩
  · intro b hb
    exact accesses_inside h hok hb
  · intro a ha
    exact step_frame hstep ha
  · exact step_sends hstep

/-- A notification of the first of two children is in the hands of the second. -/
theorem shareMem_bounds_two :
    let s := (play Legal step start (sentEvents 97 ++ toldEvents)).get (by decide)
    ((s.child 1).pc.accesses (s.child 1).idx).map Access.start = [0] ∧
      ∀ b ∈ accesses s (.childStep 1 true), 0 ≤ b.start ∧ b.start + b.length ≤ userLimit * bufferSize := by
  intro s
  have hs : Reach Init Legal step s := reach_of_play init_start (Option.some_get _).symm
  refine ⟨by decide, ?_⟩
  exact ((shareMem_bounds hs).2.2 (.childStep 1 true) ((step s (.childStep 1 true)).get (by decide))
    (by decide) (Option.some_get _).symm).1

end LinuxServer.ShmChat
