import LinuxServer.ShmChatMessages
import LinuxServer.Flow

/-!
# Where the notifications of the chat server go

A notification of the child `k` waits in its pipe, is taken by the parent, which goes over
the roster with it, then waits in the pipe of each other child `c` until that child takes
it.  Seen from one pair of children these are places in a line, and no step changes the
order in it.  What waits in a pipe is lost when the end it would be read from is closed:
that of a child when the child dies, that of the parent when it reaps the child or ends.
-/

namespace LinuxServer.ShmChat

variable {s s' : Server} {c k l : ℕ} {n : Notification}

/-- The notification that a child has in hand. -/
def ChildPc.inHand : ChildPc → List Notification
  | .got n _ => [n]
  | _ => []

/-- Whether the child is about to tell the parent of a message it has received. -/
def ChildPc.telling : ChildPc → Bool
  | .received _ => true
  | _ => false

def ParentPc.ended : ParentPc → Bool
  | .done => true
  | _ => false

/-- What a child can still read from its pipe. -/
def Child.inbox (c : Child) : List Notification := if c.pc.running then c.pipe.queue else []

namespace Server

/-- What has come to the child `c`: what it has put out, has in hand and has in its pipe. -/
def received (s : Server) (c : ℕ) : List Notification :=
  (s.delivered.filter (·.child = c)).map (·.notification) ++ (s.child c).pc.inHand ++ (s.child c).inbox

/-- Whether the parent's end of the pipe of the child `k` is closed. -/
def shut (s : Server) (k : ℕ) : Bool := s.pc.ended || (s.child k).pc.isReaped

/-- What the parent can still read from the pipe of the child `k`. -/
def waiting (s : Server) (k : ℕ) : List Notification := if s.shut k then [] else (s.child k).up.queue

/-- What the parent has in hand for the child `c`, whose entry its loop has not come to. -/
def pending (s : Server) (c : ℕ) : List Notification :=
  match s.pc with
  | .forward n _ j _ => if j ≤ slot s c then [n] else []
  | _ => []

/-- The notifications of the child `k` that have come to the child `c` or may come to it,
the oldest first. -/
def line (k c : ℕ) (s : Server) : List Notification :=
  (s.received c ++ s.pending c).filter (·.origin = k) ++ s.waiting k

/-- What the child `k` is about to tell the parent when it takes a step. -/
def announced (k : ℕ) (s : Server) : Event → List Notification
  | .childStep l _ =>
    if l = k ∧ (s.child k).pc.telling = true then
      [⟨(s.child k).idx, k, s.segment (s.child k).idx, s.writes (s.child k).idx⟩]
    else []
  | _ => []

/-- Where the parent is in its loop over the roster. -/
def cursor (s : Server) : Option (Notification × ℤ) :=
  match s.pc with
  | .forward n _ j _ => some (n, j)
  | _ => none

end Server

/-- A step in which the sends of the parent and those of the child `k` to it get through,
and in which the parent closes the pipe of `k` only if it has read it to the end. -/
def Lossless (k : ℕ) (s : Server) : Event → Prop
  | .parentStep sent =>
    sent = true ∧ (s.pc = .batch [] → s.stopServer = true → (s.child k).up.queue = [])
  | .childStep l ok => l = k → (s.child k).pc.telling = true → ok = true ∧ s.pc.ended = false
  | .waitpid (some l) => l = k → (s.child k).up.queue = []
  | _ => True

/-! ## Steps that move no notification -/

/-- What a child has on its way or in hand. -/
def Child.load (c : Child) : List Notification × List Notification × List Notification :=
  (c.up.queue, c.pc.inHand, c.inbox)

theorem pending_none (h : s.cursor = none) (c : ℕ) : s.pending c = [] := by
  unfold Server.cursor at h
  unfold Server.pending
  cases hpc : s.pc with
  | forward n fd j rest => simp [hpc] at h
  | _ => rfl

theorem pending_same (hs : Same s s') (hpc : s'.pc = s.pc) (c : ℕ) : s'.pending c = s.pending c := by
  unfold Server.pending
  rw [hpc, hs.slot]

/-- No notification has moved, and no child has been added but a new one. -/
structure Still (s s' : Server) : Prop where
  delivered : s'.delivered = s.delivered
  load : ∀ l, (s'.child l).load = (s.child l).load ∨ s.forked ≤ l ∧ (s'.child l).load = ([], [], [])
  parent : s.cursor = none ∧ s'.cursor = none ∨ s'.pc = s.pc ∧ Same s s'

/-- A new child has nothing in its pipe. -/
theorem Still.up (h : Still s s') (k : ℕ) :
    Carried (k < s.forked) (s'.child k).up.queue (s.child k).up.queue := by
  rcases h.load k with hk | ⟨hge, hk⟩ <;> simp only [Child.load, Prod.mk.injEq] at hk <;> rw [hk.1]
  · exact .of_eq rfl
  · exact .of_lost (List.nil_sublist _) (by omega)

/-- A new child has nothing in hand. -/
theorem Still.line (h : Still s s') {P : Prop} (hwaiting : Carried P (s'.waiting k) (s.waiting k))
    (hforked : P → c < s.forked) : Carried P (s'.line k c) (s.line k c) := by
  have hpending : s'.pending c = s.pending c := by
    rcases h.parent with ⟨h1, h2⟩ | ⟨hpc, hs⟩
    · rw [pending_none h1, pending_none h2]
    · exact pending_same hs hpc c
  have hreceived : Carried (c < s.forked) (s'.received c) (s.received c) := by
    unfold Server.received
    rw [h.delivered]
    rcases h.load c with hc | ⟨hge, hc⟩ <;> simp only [Child.load, Prod.mk.injEq] at hc <;>
      rw [hc.2.1, hc.2.2]
    · exact .of_eq rfl
    · exact .of_lost (by simp) (by omega)
  unfold Server.line
  rw [hpending]
  exact .append (.filter (.append (hreceived.mono hforked) (.of_eq rfl)) _) hwaiting

theorem load_setChild {d : Child} (h : d.load = (s.child l).load) (m : ℕ) :
    ((s.setChild l d).child m).load = (s.child m).load := by
  rcases eq_or_ne m l with rfl | hm
  · simpa [Server.setChild] using h
  · simp [Server.setChild, hm]

theorem still_setChild {d : Child} (hs : Same s (s.setChild l d)) (h : d.load = (s.child l).load) :
    Still s (s.setChild l d) :=
  ⟨rfl, fun m => .inl (load_setChild h m), .inr ⟨rfl, hs⟩⟩

theorem load_report (s : Server) (fd : ℤ) (m : ℕ) : ((s.report fd).child m).load = (s.child m).load := by
  rcases report_cases s fd with ⟨-, h⟩ | ⟨-, h⟩ | ⟨l, -, h⟩ | h <;> rw [h]
  exact load_setChild (s := s) (l := l) (d := { s.child l with up := (s.child l).up.report }) rfl m

theorem load_foldl_report (ready : List ℤ) (s : Server) (m : ℕ) :
    ((ready.foldl Server.report s).child m).load = (s.child m).load :=
  foldl_report (R := fun s t => (t.child m).load = (s.child m).load) (fun _ => rfl)
    (fun h h' => h'.trans h) (fun s fd => load_report s fd m) ready s

/-- A new child has nothing yet. -/
theorem load_acceptBranch (result : Accepted) (l : ℕ) :
    ((s.acceptBranch result).child l).load = (s.child l).load ∨
      s.forked ≤ l ∧ ((s.acceptBranch result).child l).load = ([], [], []) := by
  cases result with
  | failed => exact .inl rfl
  | connected connfd pipefd0 pipefd1 pid =>
    simp only [Server.acceptBranch]
    split
    · exact .inl rfl
    · cases pid with
      | none => exact .inl rfl
      | some pid =>
        by_cases hl : l = s.forked
        · refine .inr ⟨hl.ge, ?_⟩
          simp [Server.openPipe, Server.join, hl, Child.load, Child.inbox, Server.newChild, Port.empty,
            ChildPc.inHand]
        · refine .inl ?_
          simp [Server.openPipe, Server.join, hl]

theorem load_reap (hz : (s.child k).pc.isZombie = true) (m : ℕ) :
    ((s.reap k).child m).load = (s.child m).load := by
  have hload : Child.load { s.child k with pc := .reaped } = (s.child k).load := by
    cases hpc : (s.child k).pc <;> simp [hpc, ChildPc.isZombie] at hz
    simp [Child.load, Child.inbox, hpc, ChildPc.inHand, ChildPc.running]
  have hset := load_setChild hload m
  unfold Server.reap
  simp only
  split <;> exact hset

/-- The steps in which neither a child nor the parent goes on with its program. -/
theorem still_step {e : Event} (hok : Legal s e) (h : step s e = some s')
    (hchild : ∀ l ok, e ≠ .childStep l ok) (hdies : ∀ l, e ≠ .childDies l)
    (hparent : ∀ sent, e ≠ .parentStep sent) : Still s s' := by
  cases e with
  | connect | signal =>
    obtain rfl := by simpa [step] using h
    exact ⟨rfl, fun _ => .inl rfl, .inr ⟨rfl, .of_eq rfl⟩⟩
  | clientData l bytes =>
    obtain rfl := by simpa [step] using h
    exact still_setChild (same_setChild rfl rfl fun h => h) rfl
  | childTermHandler l =>
    obtain rfl := by simpa [step] using h
    exact still_setChild (same_setChild rfl rfl fun h => h) rfl
  | sigHandler =>
    simp only [step] at h
    split at h
    · obtain rfl := by simpa using h
      exact ⟨rfl, fun _ => .inl rfl, .inr ⟨rfl, .of_eq rfl⟩⟩
    · cases h
  | childDies l => exact absurd rfl (hdies l)
  | epollWait ready =>
    obtain ⟨hpc, rfl⟩ := epollWait_eq h
    refine ⟨(foldl_report_quiet ready s).2, fun m => .inl (load_foldl_report ready s m), .inl ⟨?_, rfl⟩⟩
    rw [Server.cursor, hpc]
  | accept result =>
    obtain ⟨rest, hpc, rfl⟩ := accept_eq h
    refine ⟨(acceptBranch_quiet result s).2, load_acceptBranch result, .inl ⟨?_, rfl⟩⟩
    rw [Server.cursor, hpc]
  | waitpid l =>
    cases l with
    | some l =>
      obtain ⟨⟨sigs, rest, hpc⟩, rfl⟩ := waitpid_some_eq h
      have hpc' : (s.reap l).pc = .reap sigs rest := by
        unfold Server.reap
        simp only
        split <;> exact hpc
      refine ⟨(reap_quiet l s).2, fun m => .inl (load_reap hok.2 m), .inl ⟨?_, ?_⟩⟩
      · rw [Server.cursor, hpc]
      · rw [Server.cursor, hpc']
    | none =>
      obtain ⟨sigs, rest, hpc, rfl⟩ := waitpid_none_eq h
      refine ⟨rfl, fun _ => .inl rfl, .inl ⟨?_, rfl⟩⟩
      rw [Server.cursor, hpc]
  | parentStep sent => exact absurd rfl (hparent sent)
  | childWait l ready =>
    obtain ⟨hpc, rfl⟩ := childWait_eq h
    have hrun : (s.child l).pc.running = true := by rw [hpc]; rfl
    refine still_setChild ?_ ?_
    · exact same_move rfl rfl hrun
    rw [Child.load, Child.load, Child.inbox, Child.inbox, hpc]
    by_cases hpipe : ChildFd.pipe ∈ ready
    · rw [if_pos hpipe]
      rfl
    · rw [if_neg hpipe]
      rfl
  | childStep l ok => exact absurd rfl (hchild l ok)

/-! ## A child goes on -/

/-- What a step of `run_child` does with notifications. -/
inductive ChildTraffic (s : Server) (l : ℕ) (ok : Bool) : Server → Prop
  | still (s' : Server) (hdelivered : s'.delivered = s.delivered)
      (hload : ∀ m, (s'.child m).load = (s.child m).load)
      (hquiet : (s.child l).pc.telling = false) : ChildTraffic s l ok s'
  | dies (hquiet : (s.child l).pc.telling = false) : ChildTraffic s l ok (s.childDies l)
  | tells (rest : List ChildFd) (hpc : (s.child l).pc = .received rest) :
      ChildTraffic s l ok (s.setChild l { s.child l with
        pc := .batch rest
        up := if ok then (s.child l).up.arrive
            [⟨(s.child l).idx, l, s.segment (s.child l).idx, s.writes (s.child l).idx⟩]
          else (s.child l).up })
  | takes (rest : List ChildFd) (n : Notification) (q : List Notification)
      (hpc : (s.child l).pc = .batch (.pipe :: rest)) (hqueue : (s.child l).pipe.queue = n :: q) :
      ChildTraffic s l ok (s.setChild l { s.child l with
        pc := .got n rest
        pipe := (s.child l).pipe.taken 1 })
  | delivers (n : Notification) (rest : List ChildFd) (hpc : (s.child l).pc = .got n rest) :
      ChildTraffic s l ok { s.setChild l { s.child l with pc := .batch rest } with
        delivered := s.delivered ++ [⟨l, n, s.segment n.client, s.writes n.client⟩] }

/-- In the middle of `run_child`, with no notification in hand and none to issue. -/
def ChildPc.Idle (pc : ChildPc) : Prop := pc.inHand = [] ∧ pc.running = true ∧ pc.telling = false

theorem still_of_idle {t : Server} {d : Child} {ok : Bool} (hidle : (s.child l).pc.Idle)
    (ht : t.child = s.child) (hdelivered : t.delivered = s.delivered) (hup : d.up.queue = (s.child l).up.queue)
    (hpipe : d.pipe.queue = (s.child l).pipe.queue) (hd : d.pc.inHand = [] ∧ d.pc.running = true) :
    ChildTraffic s l ok (t.setChild l d) := by
  obtain ⟨hhand, hrun, hquiet⟩ := hidle
  have hload : d.load = (s.child l).load := by
    rw [Child.load, Child.load, Child.inbox, Child.inbox, hup, hpipe, hhand, hrun, hd.1, hd.2]
  refine .still _ hdelivered (fun m => ?_) hquiet
  rw [load_setChild (by rw [ht, hload]), ht]

theorem childStep_traffic {ok : Bool} (h : s.childStep l ok = some s') : ChildTraffic s l ok s' := by
  unfold Server.childStep at h
  cases hpc : (s.child l).pc with
  | loop =>
    have hidle : (s.child l).pc.Idle := hpc ▸ ⟨rfl, rfl, rfl⟩
    cases hstop : (s.child l).stopChild with
    | true =>
      obtain rfl : s.childDies l = s' := by simpa [hpc, hstop] using h
      exact .dies hidle.2.2
    | false =>
      obtain rfl : s.setChild l { s.child l with pc := .wait } = s' := by simpa [hpc, hstop] using h
      exact still_of_idle hidle rfl rfl rfl rfl ⟨rfl, rfl⟩
  | wait | zombie | reaped => simp [hpc] at h
  | batch events =>
    have hidle : (s.child l).pc.Idle := hpc ▸ ⟨rfl, rfl, rfl⟩
    match events with
    | [] =>
      obtain rfl := by simpa [hpc] using h
      exact still_of_idle hidle rfl rfl rfl rfl ⟨rfl, rfl⟩
    | .conn :: rest =>
      obtain rfl := by simpa [hpc] using h
      exact still_of_idle hidle rfl rfl rfl rfl ⟨rfl, rfl⟩
    | .pipe :: rest =>
      cases ok with
      | false =>
        obtain rfl := by simpa [hpc] using h
        exact still_of_idle hidle rfl rfl rfl rfl ⟨rfl, rfl⟩
      | true =>
        cases hq : (s.child l).pipe.queue with
        | nil =>
          obtain rfl := by simpa [hpc, hq] using h
          exact still_of_idle hidle rfl rfl rfl rfl ⟨rfl, rfl⟩
        | cons n q =>
          obtain rfl := by simpa [hpc, hq] using h
          exact .takes rest n q hpc hq
  | cleared rest =>
    have hidle : (s.child l).pc.Idle := hpc ▸ ⟨rfl, rfl, rfl⟩
    cases ok with
    | false =>
      obtain rfl := by simpa [hpc] using h
      exact still_of_idle hidle rfl rfl rfl rfl ⟨rfl, rfl⟩
    | true =>
      by_cases hq : (s.child l).conn.queue = []
      · obtain rfl := by simpa [hpc, hq] using h
        exact still_of_idle hidle rfl rfl rfl rfl ⟨rfl, rfl⟩
      · obtain rfl := by simpa [hpc, hq] using h
        exact still_of_idle hidle rfl rfl rfl rfl ⟨rfl, rfl⟩
  | received rest =>
    obtain rfl := by simpa [hpc] using h
    exact .tells rest hpc
  | got n rest =>
    obtain rfl := by simpa [hpc] using h
    exact .delivers n rest hpc

/-! ## The parent goes on -/

/-- What a step of the parent does with notifications. -/
inductive ParentTraffic (s : Server) (sent : Bool) : Server → Prop
  | still (s' : Server) (hs : Same s s') (hdelivered : s'.delivered = s.delivered)
      (hchild : s'.child = s.child) (hno : s.cursor = none) (hno' : s'.cursor = none) :
      ParentTraffic s sent s'
  | takes (fd : ℤ) (rest : List ℤ) (l : ℕ) (n : Notification) (q : List Notification)
      (hpc : s.pc = .batch (fd :: rest)) (hfile : s.files fd = some (.pipe l))
      (hqueue : (s.child l).up.queue = n :: q) :
      ParentTraffic s sent { s.setChild l { s.child l with up := (s.child l).up.taken 1 } with
        pc := .forward n fd 0 rest }
  | sends (n : Notification) (fd j : ℤ) (rest : List ℤ) (hpc : s.pc = .forward n fd j rest)
      (hj : j < s.userCount) :
      ParentTraffic s sent { (if (s.users j).pipefd0 ≠ fd ∧ sent then s.forwardTo n j else s) with
        pc := .forward n fd (j + 1) rest }
  | ends (n : Notification) (fd j : ℤ) (rest : List ℤ) (hpc : s.pc = .forward n fd j rest)
      (hj : s.userCount ≤ j) : ParentTraffic s sent { s with pc := .batch rest }

theorem parentStep_traffic {sent : Bool} (h : s.parentStep sent = some s') : ParentTraffic s sent s' := by
  have hmove := parentStep_move h
  cases hpc : s.pc with
  | wait | reap | done => simp [Server.parentStep, hpc] at h
  | signals sigs rest =>
    have hno : s.cursor = none := by rw [Server.cursor, hpc]
    cases hmove with
    | signalsEnd rest hpc' => exact .still _ (.of_eq rfl) rfl rfl hno rfl
    | chld sigs rest hpc' => exact .still _ (.of_eq rfl) rfl rfl hno rfl
    | stop sig sigs rest hpc' =>
      rcases stop_cases s with hs | hs <;> rw [hs] <;> exact .still _ (.of_eq rfl) rfl rfl hno rfl
    | other sigs rest hpc' => exact .still _ (.of_eq rfl) rfl rfl hno rfl
    | _ => simp_all
  | batch events =>
    have hno : s.cursor = none := by rw [Server.cursor, hpc]
    cases hmove with
    | again hpc' =>
      refine .still _ (.of_eq rfl) rfl rfl hno ?_
      cases s.stopServer <;> rfl
    | signalsEmpty rest hpc' hqueue => exact .still _ (.of_eq rfl) rfl rfl hno rfl
    | signalsRead rest sigs hpc' => exact .still _ (.of_eq rfl) rfl rfl hno rfl
    | ignore fd rest hpc' => exact .still _ (.of_eq rfl) rfl rfl hno rfl
    | pipeRead fd rest l n hpc' hlisten hsig hfile hqueue =>
      obtain ⟨m, q, hq⟩ := List.exists_cons_of_ne_nil (List.ne_nil_of_mem hqueue)
      simp only [Server.parentStep, hpc', hlisten, hsig, hfile, hq, if_false, Option.some.injEq] at h
      have hmn : m = n := by
        have := congrArg Server.pc h
        simp only [ParentPc.forward.injEq] at this
        exact this.1
      exact .takes fd rest l n q hpc' hfile (hmn ▸ hq)
    | _ => simp_all
  | forward n fd j rest =>
    simp only [Server.parentStep, hpc] at h
    split at h
    next hj =>
      obtain rfl := Option.some.inj h
      exact .sends n fd j rest hpc hj
    next hj =>
      obtain rfl := Option.some.inj h
      exact .ends n fd j rest hpc (by omega)

/-! ## What has come to a child -/

theorem received_of_load (hd : s'.delivered = s.delivered) (hl : (s'.child c).load = (s.child c).load) :
    s'.received c = s.received c := by
  simp only [Child.load, Prod.mk.injEq] at hl
  unfold Server.received
  rw [hd, hl.2.1, hl.2.2]

theorem received_setChild_self (s : Server) (l : ℕ) (d : Child) : (s.setChild l d).received l =
    (s.delivered.filter (·.child = l)).map (·.notification) ++ d.pc.inHand ++ d.inbox := by
  simp [Server.received, Server.setChild]

theorem received_setChild_of_ne {d : Child} (hc : c ≠ l) : (s.setChild l d).received c = s.received c := by
  simp [Server.received, Server.setChild, hc]

theorem received_childDies (c : ℕ) :
    Carried (((s.childDies l).child c).pc.running = true) ((s.childDies l).received c) (s.received c) := by
  let dead : Child := { s.child l with pc := .zombie, up := (s.child l).up.arrive [] }
  have hset : (s.childDies l).received c = (s.setChild l dead).received c := rfl
  rw [hset]
  rcases eq_or_ne c l with rfl | hc
  · refine .of_lost ?_ ?_
    · rw [received_setChild_self]
      simp [dead, ChildPc.inHand, Child.inbox, ChildPc.running, Server.received]
    · simp [Server.childDies, Server.setChild, ChildPc.running]
  · exact .of_eq (received_setChild_of_ne hc)

/-- A step of a child moves its notifications along, unless it dies. -/
theorem ChildTraffic.received {ok : Bool} (h : ChildTraffic s l ok s') (c : ℕ) :
    Carried ((s'.child c).pc.running = true) (s'.received c) (s.received c) := by
  cases h with
  | still s' hdelivered hload => exact .of_eq (received_of_load hdelivered (hload c))
  | dies => exact received_childDies c
  | tells rest hpc =>
    refine .of_eq ?_
    rcases eq_or_ne c l with rfl | hc
    · rw [received_setChild_self, Server.received, Child.inbox, Child.inbox, hpc]
      rfl
    · exact received_setChild_of_ne hc
  | takes rest n q hpc hqueue =>
    refine .of_eq ?_
    rcases eq_or_ne c l with rfl | hc
    · rw [received_setChild_self, Server.received, Child.inbox, Child.inbox, hpc]
      simp [ChildPc.inHand, ChildPc.running, Port.taken, hqueue]
    · exact received_setChild_of_ne hc
  | delivers n rest hpc =>
    refine .of_eq ?_
    rcases eq_or_ne c l with rfl | hc
    · simp [Server.received, Server.setChild, Child.inbox, hpc, ChildPc.inHand, ChildPc.running]
    · simp [Server.received, Server.setChild, hc, Ne.symm hc]

/-- A step of a child adds to its own pipe what it tells the parent. -/
theorem ChildTraffic.up {ok : Bool} (h : ChildTraffic s l ok s') (k : ℕ) :
    Carried (Lossless k s (.childStep l ok)) (s'.child k).up.queue
      ((s.child k).up.queue ++ s.announced k (.childStep l ok)) := by
  have hsilent : (s.child l).pc.telling = false → s.announced k (.childStep l ok) = [] := by
    intro hquiet
    refine if_neg fun ⟨hl, ht⟩ => ?_
    subst hl
    exact absurd ht (by simp [hquiet])
  cases h with
  | still s' hdelivered hload hquiet =>
    rw [hsilent hquiet, List.append_nil]
    exact .of_eq (congrArg Prod.fst (hload k))
  | dies hquiet =>
    rw [hsilent hquiet, List.append_nil]
    refine .of_eq ?_
    rcases eq_or_ne k l with rfl | hk
    · simp [Server.childDies, Server.setChild, Port.arrive]
    · simp [Server.childDies, Server.setChild, hk]
  | tells rest hpc =>
    have htell : (s.child l).pc.telling = true := by rw [hpc]; rfl
    rcases eq_or_ne k l with rfl | hk
    · have hbrings : s.announced k (.childStep k ok) =
          [⟨(s.child k).idx, k, s.segment (s.child k).idx, s.writes (s.child k).idx⟩] :=
        if_pos ⟨rfl, htell⟩
      rw [hbrings]
      cases ok with
      | true => exact .of_eq (by simp [Server.setChild, Port.arrive])
      | false =>
        refine .of_lost (by simp [Server.setChild]) fun hloss => ?_
        exact absurd (hloss rfl htell) (by simp)
    · have hbrings : s.announced k (.childStep l ok) = [] := if_neg fun h => hk h.1.symm
      rw [hbrings, List.append_nil]
      exact .of_eq (by simp [Server.setChild, hk])
  | takes rest n q hpc hqueue =>
    rw [hsilent (by rw [hpc]; rfl), List.append_nil]
    refine .of_eq ?_
    rcases eq_or_ne k l with rfl | hk
    · simp [Server.setChild]
    · simp [Server.setChild, hk]
  | delivers n rest hpc =>
    rw [hsilent (by rw [hpc]; rfl), List.append_nil]
    refine .of_eq ?_
    rcases eq_or_ne k l with rfl | hk
    · simp [Server.setChild]
    · simp [Server.setChild, hk]

/-! ## Where a notification may be -/

/-- A notification in the pipe of a child is its own, the parent takes notifications from
the pipe of the child they come from, and none has come to the child it comes from. -/
structure Routed (s : Server) : Prop where
  up : ∀ k, ∀ n ∈ (s.child k).up.queue, n.origin = k
  forward : ∀ n fd j rest, s.pc = .forward n fd j rest → 0 ≤ j ∧ s.files fd = some (.pipe n.origin)
  received : ∀ c, ∀ n ∈ s.received c, n.origin ≠ c

/-- The entry that the parent's loop has come to is that of one child. -/
theorem forwardTo_entry (hr : Roster s) (n : Notification) {j : ℤ} (h0 : 0 ≤ j) (hj : j < s.userCount) :
    ∃ l, Unreaped s l ∧ slot s l = j ∧ (s.users j).pipefd0 = (s.child l).pipefd0 ∧
      s.forwardTo n j = if (s.child l).pc.running then
          s.setChild l { s.child l with pipe := (s.child l).pipe.arrive [n] }
        else s := by
  obtain ⟨l, hl, hlist⟩ := hr.entry j h0 hj
  refine ⟨l, hl, hr.slot_eq h0 hj hlist, hlist.2, ?_⟩
  unfold Server.forwardTo
  rw [hlist.2, hr.file l hl]

/-- What the parent's loop does at the entry of a child: it skips the one that the
notification comes from. -/
theorem sends_entry (hr : Roster s) (hw : Routed s) {fd j : ℤ} {rest : List ℤ}
    (hpc : s.pc = .forward n fd j rest) (hj : j < s.userCount) (sent : Bool) :
    ∃ l, Unreaped s l ∧ slot s l = j ∧
      (if (s.users j).pipefd0 ≠ fd ∧ sent then s.forwardTo n j else s) =
        if l ≠ n.origin ∧ sent ∧ (s.child l).pc.running then
          s.setChild l { s.child l with pipe := (s.child l).pipe.arrive [n] }
        else s := by
  obtain ⟨h0, hfile⟩ := hw.forward n fd j rest hpc
  obtain ⟨l, hl, hslot, hfd, hto⟩ := forwardTo_entry hr n h0 hj
  refine ⟨l, hl, hslot, ?_⟩
  have hiff : (s.users j).pipefd0 ≠ fd ↔ l ≠ n.origin := by
    rw [hfd, not_iff_not]
    constructor
    · intro h
      have hlf := hr.file l hl
      rw [h, hfile] at hlf
      simpa using hlf.symm
    · intro h
      rw [h]
      exact (hr.unreaped fd _ hfile).2.symm
  by_cases hcond : (s.users j).pipefd0 ≠ fd ∧ sent
  · rw [if_pos hcond, hto]
    by_cases hrun : (s.child l).pc.running = true
    · rw [if_pos hrun, if_pos ⟨hiff.mp hcond.1, hcond.2, hrun⟩]
    · rw [if_neg hrun, if_neg fun h => hrun h.2.2]
  · rw [if_neg hcond, if_neg fun h => hcond ⟨hiff.mpr h.1, h.2.1⟩]

/-- Only from the parent does a notification come to a child, never to its own. -/
theorem ParentTraffic.received {sent : Bool} (h : ParentTraffic s sent s') (hr : Roster s) (hw : Routed s)
    (c : ℕ) (hn : n ∈ s'.received c) : n ∈ s.received c ∨ n.origin ≠ c := by
  cases h with
  | still s' hs hdelivered hchild =>
    rw [received_of_load hdelivered (by rw [hchild])] at hn
    exact .inl hn
  | takes fd rest l m q =>
    refine .inl ?_
    rcases eq_or_ne c l with rfl | hc
    · simpa [Server.received, Server.setChild, Child.inbox] using hn
    · simpa [Server.received, Server.setChild, hc] using hn
  | sends m fd j rest hpc hj =>
    obtain ⟨l, hl, -, hto⟩ := sends_entry hr hw hpc hj sent
    rw [hto] at hn
    by_cases hcond : l ≠ m.origin ∧ sent ∧ (s.child l).pc.running
    · rw [if_pos hcond] at hn
      rcases eq_or_ne c l with rfl | hc
      · have hmem : n ∈ s.received c ∨ n = m := by
          simpa [Server.received, Server.setChild, Child.inbox, hcond.2.2, Port.arrive, or_assoc] using hn
        exact hmem.imp_right fun h => by rw [h]; exact hcond.1.symm
      · exact .inl (by simpa [Server.received, Server.setChild, hc] using hn)
    · rw [if_neg hcond] at hn
      exact .inl hn
  | ends => exact .inl hn

theorem ParentTraffic.up {sent : Bool} (h : ParentTraffic s sent s') (hr : Roster s) (hw : Routed s) (k : ℕ)
    (hn : n ∈ (s'.child k).up.queue) : n ∈ (s.child k).up.queue := by
  cases h with
  | still s' hs hdelivered hchild => rwa [hchild] at hn
  | takes fd rest l m q =>
    rcases eq_or_ne k l with rfl | hk
    · have hn' : n ∈ (s.child k).up.queue.drop 1 := by simpa [Server.setChild, Port.taken] using hn
      exact List.mem_of_mem_drop hn'
    · simpa [Server.setChild, hk] using hn
  | sends m fd j rest hpc hj =>
    obtain ⟨l, hl, -, hto⟩ := sends_entry hr hw hpc hj sent
    rw [hto] at hn
    by_cases hcond : l ≠ m.origin ∧ sent ∧ (s.child l).pc.running
    · rw [if_pos hcond] at hn
      rcases eq_or_ne k l with rfl | hk
      · simpa [Server.setChild] using hn
      · simpa [Server.setChild, hk] using hn
    · rwa [if_neg hcond] at hn
  | ends => exact hn

end LinuxServer.ShmChat
