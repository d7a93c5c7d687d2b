import LinuxServer.ShmChatRoster
import Mathlib.Data.Set.Insert

/-!
# The open descriptors of the parent

A join opens a connection and the two ends of a pipe, and each of its branches closes
some of them.  The one for a `fork` that fails closes the connection only.
-/

namespace LinuxServer.ShmChat

variable {s s' : Server} {k : ℕ} {e : Event} {epollfd sigPipefd1 fd : ℤ}

def Server.openFds (s : Server) : Set ℤ := {fd | s.files fd ≠ none}

theorem mem_openFds : fd ∈ s.openFds ↔ s.files fd ≠ none := .rfl

/-! ## The calls of the accept branch -/

/-- A call that opens or closes a descriptor of the parent. -/
inductive FileCall
  | opens (fd : ℤ)
  | closes (fd : ℤ)

def FileCall.run (fds : Set ℤ) : FileCall → Set ℤ
  | opens fd => insert fd fds
  | closes fd => fds \ {fd}

/-- What the branch of the listening socket opens and closes, in the order of the source. -/
def Server.acceptCalls (result : Accepted) (s : Server) : List FileCall :=
  match result with
  | .failed => []
  | .connected connfd pipefd0 pipefd1 pid =>
    .opens connfd ::
      if userLimit ≤ s.userCount then [.closes connfd]
      else
        .opens pipefd0 :: .opens pipefd1 ::
          match pid with
          | none => [.closes connfd]
          | some _ => [.closes connfd, .closes pipefd1]

/-- `files` is what these calls leave. -/
theorem acceptBranch_openFds {result : Accepted} (hok : result.Legal s) :
    (s.acceptBranch result).openFds = (s.acceptCalls result).foldl FileCall.run s.openFds := by
  cases result with
  | failed => rfl
  | connected connfd pipefd0 pipefd1 pid =>
    obtain ⟨-, hc, h0, h1, hc0, hc1, h01, -⟩ := hok
    ext fd
    have hfd : fd = connfd ∨ fd = pipefd1 → s.files fd = none := by rintro (rfl | rfl) <;> assumption
    by_cases hlimit : userLimit ≤ s.userCount
    · simp only [Server.acceptBranch, Server.acceptCalls, if_pos hlimit, List.foldl_cons, List.foldl_nil,
        FileCall.run, mem_openFds, Set.mem_sdiff, Set.mem_insert_iff, Set.mem_singleton_iff]
      tauto
    · have hopen0 : fd = pipefd0 → fd ≠ connfd ∧ fd ≠ pipefd1 := by
        rintro rfl
        exact ⟨hc0.symm, h01⟩
      have hopen1 : fd = pipefd1 → fd ≠ connfd := by
        rintro rfl
        exact hc1.symm
      cases pid with
      | none =>
        simp only [Server.acceptBranch, Server.acceptCalls, if_neg hlimit, Server.openPipe, Server.forkFails,
          List.foldl_cons, List.foldl_nil, FileCall.run, mem_openFds, Set.mem_sdiff, Set.mem_insert_iff,
          Set.mem_singleton_iff, Function.update_apply]
        split_ifs <;> tauto
      | some pid =>
        simp only [Server.acceptBranch, Server.acceptCalls, if_neg hlimit, Server.openPipe, Server.join,
          List.foldl_cons, List.foldl_nil, FileCall.run, mem_openFds, Set.mem_sdiff, Set.mem_insert_iff,
          Set.mem_singleton_iff, Function.update_apply]
        split_ifs <;> tauto

/-! ## The account -/

/-- The descriptors that the parent opens before its main loop. -/
def OwnFd (epollfd sigPipefd1 : ℤ) (s : Server) (fd : ℤ) : Prop :=
  fd = s.listenfd ∨ fd = epollfd ∨ fd = s.sigPipefd0 ∨ fd = sigPipefd1

instance (s : Server) (fd : ℤ) : Decidable (OwnFd epollfd sigPipefd1 s fd) :=
  inferInstanceAs (Decidable (_ ∨ _))

/-- In front of the main loop, with these descriptors open and no others. -/
def Opened (epollfd sigPipefd1 : ℤ) (s : Server) : Prop :=
  Init s ∧ ∀ fd, fd ∈ s.openFds ↔ OwnFd epollfd sigPipefd1 s fd

/-- The open descriptors are those and the parent's ends of the pipes of the users. -/
def Accounted (epollfd sigPipefd1 : ℤ) (s : Server) : Prop :=
  ∀ fd, fd ∈ s.openFds ↔
    OwnFd epollfd sigPipefd1 s fd ∨ ∃ i, (0 ≤ i ∧ i < s.userCount) ∧ (s.users i).pipefd0 = fd

/-- A `fork` fails. -/
def ForkFails (s : Server) : Event → Prop
  | .accept (.connected _ _ _ none) => s.userCount < userLimit
  | _ => False

/-- A connection cannot be accepted, is refused, or gets no child. -/
def JoinFails (s : Server) : Event → Prop
  | .accept .failed => True
  | .accept (.connected _ _ _ pid) => pid = none ∨ userLimit ≤ s.userCount
  | _ => False

instance (s : Server) : (e : Event) → Decidable (ForkFails s e)
  | .accept (.connected _ _ _ none) => inferInstanceAs (Decidable (_ < _))
  | .accept (.connected _ _ _ (some _)) => isFalse id
  | .accept .failed => isFalse id
  | .connect => isFalse id
  | .clientData _ _ => isFalse id
  | .signal _ => isFalse id
  | .sigHandler => isFalse id
  | .childTermHandler _ => isFalse id
  | .childDies _ => isFalse id
  | .epollWait _ => isFalse id
  | .waitpid _ => isFalse id
  | .parentStep _ => isFalse id
  | .childWait _ _ => isFalse id
  | .childStep _ _ => isFalse id

/-- The pipes of the users are the files that lead to a child. -/
theorem Roster.pipe_iff (h : Roster s) : (∃ k, s.files fd = some (.pipe k)) ↔
    ∃ i, (0 ≤ i ∧ i < s.userCount) ∧ (s.users i).pipefd0 = fd := by
  constructor
  · rintro ⟨k, hk⟩
    obtain ⟨hun, rfl⟩ := h.unreaped fd k hk
    exact ⟨slot s k, ⟨h.slot_pos k hun, h.slot_lt k hun⟩, (h.lists k hun).2⟩
  · rintro ⟨i, ⟨h0, hi⟩, rfl⟩
    obtain ⟨k, hun, hl⟩ := h.entry i h0 hi
    exact ⟨k, hl.2 ▸ h.file k hun⟩

/-- The parent's own descriptors stay open. -/
def OwnOpen (epollfd sigPipefd1 : ℤ) (s : Server) : Prop :=
  ∀ fd, OwnFd epollfd sigPipefd1 s fd → ∃ f, s.files fd = some f ∧ ∀ k, f ≠ .pipe k

/-- All other descriptors lead to children. -/
def OthersPipes (epollfd sigPipefd1 : ℤ) (s : Server) : Prop :=
  ∀ fd f, s.files fd = some f → OwnFd epollfd sigPipefd1 s fd ∨ ∃ k, f = .pipe k

theorem accounted_of_others (hr : Roster s) (ho : OwnOpen epollfd sigPipefd1 s)
    (h : OthersPipes epollfd sigPipefd1 s) : Accounted epollfd sigPipefd1 s := by
  intro fd
  rw [mem_openFds, ← hr.pipe_iff, Option.ne_none_iff_exists']
  constructor
  · rintro ⟨f, hf⟩
    refine (h fd f hf).imp_right ?_
    rintro ⟨k, rfl⟩
    exact ⟨k, hf⟩
  · rintro (hown | ⟨k, hk⟩)
    · obtain ⟨f, hf, -⟩ := ho fd hown
      exact ⟨f, hf⟩
    · exact ⟨_, hk⟩

theorem OwnFd.of_same (h : Same s s') : OwnFd epollfd sigPipefd1 s' fd ↔ OwnFd epollfd sigPipefd1 s fd := by
  rw [OwnFd, OwnFd, h.listenfd, h.sigPipefd0]

theorem OwnFd.of_reap (hr : Roster s) (hk : Unreaped s k) :
    OwnFd epollfd sigPipefd1 (s.reap k) fd ↔ OwnFd epollfd sigPipefd1 s fd := by
  rw [reap_eq hr hk]
  rfl

theorem OwnOpen.same (h : OwnOpen epollfd sigPipefd1 s) (hs : Same s s') : OwnOpen epollfd sigPipefd1 s' := by
  intro fd hown
  rw [hs.files]
  exact h fd ((OwnFd.of_same hs).mp hown)

theorem OthersPipes.same (h : OthersPipes epollfd sigPipefd1 s) (hs : Same s s') :
    OthersPipes epollfd sigPipefd1 s' := by
  intro fd f hf
  rw [hs.files] at hf
  exact (h fd f hf).imp_left (OwnFd.of_same hs).mpr

theorem OwnOpen.step (h : OwnOpen epollfd sigPipefd1 s) (hr : Roster s) (hok : Legal s e)
    (hstep : ShmChat.step s e = some s') : OwnOpen epollfd sigPipefd1 s' := by
  -- what is opened was not open, and what is closed leads to a child
  cases roster_move hstep with
  | same e s' hs => exact h.same hs
  | forkFails connfd pipefd0 pipefd1 s' hcount hs =>
    obtain ⟨-, -, h0, h1, -⟩ := hok
    refine OwnOpen.same (fun fd hown => ?_) hs
    obtain ⟨f, hf, hno⟩ := h fd hown
    have hne0 : fd ≠ pipefd0 := by rintro rfl; simp [h0] at hf
    have hne1 : fd ≠ pipefd1 := by rintro rfl; simp [h1] at hf
    exact ⟨f, by simp [Server.openPipe, Server.forkFails, hne0, hne1, hf], hno⟩
  | join connfd pipefd0 pipefd1 pid s' hcount hs =>
    obtain ⟨-, -, h0, -⟩ := hok
    refine OwnOpen.same (fun fd hown => ?_) hs
    obtain ⟨f, hf, hno⟩ := h fd hown
    have hne0 : fd ≠ pipefd0 := by rintro rfl; simp [h0] at hf
    exact ⟨f, by simp [Server.openPipe, Server.join, hne0, hf], hno⟩
  | reap k =>
    have hk := unreaped_of_zombie hok.1 hok.2
    intro fd hown
    obtain ⟨f, hf, hno⟩ := h fd ((OwnFd.of_reap hr hk).mp hown)
    have hne : fd ≠ (s.child k).pipefd0 := by
      rintro rfl
      rw [hr.file k hk] at hf
      exact hno k (Option.some.inj hf).symm
    exact ⟨f, by rw [reap_eq hr hk]; simp [hne, hf], hno⟩

theorem OthersPipes.step (h : OthersPipes epollfd sigPipefd1 s) (hr : Roster s) (hok : Legal s e)
    (hfork : ¬ ForkFails s e) (hstep : ShmChat.step s e = some s') : OthersPipes epollfd sigPipefd1 s' := by
  cases roster_move hstep with
  | same e s' hs => exact h.same hs
  | forkFails connfd pipefd0 pipefd1 s' hcount hs => exact absurd hcount hfork
  | join connfd pipefd0 pipefd1 pid s' hcount hs =>
    refine OthersPipes.same (fun fd f hf => ?_) hs
    simp only [Server.openPipe, Server.join, Function.update_apply] at hf
    split at hf
    · exact .inr ⟨_, (Option.some.inj hf).symm⟩
    · exact h fd f hf
  | reap k =>
    have hk := unreaped_of_zombie hok.1 hok.2
    intro fd f hf
    rw [reap_eq hr hk] at hf
    simp only [Function.update_apply] at hf
    split at hf
    · cases hf
    · exact (h fd f hf).imp_left (OwnFd.of_reap hr hk).mpr

/-! ## A pipe without a child -/

def Leaked (epollfd sigPipefd1 : ℤ) (s : Server) : Prop :=
  ∃ fd, s.files fd = some .orphan ∧ ¬ OwnFd epollfd sigPipefd1 s fd

theorem Leaked.same (h : Leaked epollfd sigPipefd1 s) (hs : Same s s') : Leaked epollfd sigPipefd1 s' := by
  obtain ⟨fd, hf, hown⟩ := h
  exact ⟨fd, by rw [hs.files, hf], fun h => hown ((OwnFd.of_same hs).mp h)⟩

/-- Nothing ever closes it. -/
theorem Leaked.step (h : Leaked epollfd sigPipefd1 s) (hr : Roster s) (hok : Legal s e)
    (hstep : ShmChat.step s e = some s') : Leaked epollfd sigPipefd1 s' := by
  cases roster_move hstep with
  | same e s' hs => exact h.same hs
  | forkFails connfd pipefd0 pipefd1 s' hcount hs =>
    obtain ⟨fd, hf, hown⟩ := h
    refine Leaked.same (s := (s.openPipe connfd pipefd0 pipefd1).forkFails pipefd0 pipefd1) ⟨fd, ?_, hown⟩ hs
    simp only [Server.openPipe, Server.forkFails, Function.update_apply, hf]
    split_ifs <;> rfl
  | join connfd pipefd0 pipefd1 pid s' hcount hs =>
    obtain ⟨-, -, h0, -⟩ := hok
    obtain ⟨fd, hf, hown⟩ := h
    have hne : fd ≠ pipefd0 := by rintro rfl; simp [h0] at hf
    refine Leaked.same (s := joined s connfd pipefd0 pipefd1 pid) ⟨fd, ?_, hown⟩ hs
    simp [joined, Server.openPipe, Server.join, hne, hf]
  | reap k =>
    have hk := unreaped_of_zombie hok.1 hok.2
    obtain ⟨fd, hf, hown⟩ := h
    have hne : fd ≠ (s.child k).pipefd0 := by rintro rfl; simp [hr.file k hk] at hf
    exact ⟨fd, by rw [reap_eq hr hk]; simp [hne, hf], fun h => hown ((OwnFd.of_reap hr hk).mp h)⟩

theorem leaked_of_forkFails (ho : OwnOpen epollfd sigPipefd1 s) (hok : Legal s e) (hfork : ForkFails s e)
    (hstep : ShmChat.step s e = some s') : Leaked epollfd sigPipefd1 s' := by
  cases e with
  | accept result =>
    match result with
    | .failed => exact hfork.elim
    | .connected connfd pipefd0 pipefd1 (some pid) => exact hfork.elim
    | .connected connfd pipefd0 pipefd1 none =>
      obtain ⟨-, -, -, h1, -⟩ := hok
      obtain ⟨rest, -, rfl⟩ := accept_eq hstep
      have hroom : ¬ userLimit ≤ s.userCount := not_le.mpr hfork
      simp only [Server.acceptBranch, if_neg hroom]
      refine ⟨pipefd1, by simp [Server.forkFails], fun hown => ?_⟩
      obtain ⟨f, hf, -⟩ := ho pipefd1 hown
      simp [h1] at hf
  | _ => exact hfork.elim

theorem Leaked.not_accounted (h : Leaked epollfd sigPipefd1 s) (hr : Roster s) :
    ¬ Accounted epollfd sigPipefd1 s := by
  intro ha
  obtain ⟨fd, hf, hown⟩ := h
  obtain ⟨k, hk⟩ := hr.pipe_iff.mpr (((ha fd).mp (by simp [mem_openFds, hf])).resolve_left hown)
  simp [hf] at hk

/-! ## Joins that fail -/

/-- A join that fails changes no entry in use and not `sub_process`; whether it changes
the open descriptors depends on `fork`. -/
theorem joinFails_frame (hok : Legal s e) (hfail : JoinFails s e) (hstep : ShmChat.step s e = some s') :
    s'.userCount = s.userCount ∧ (∀ i, i < s.userCount → s'.users i = s.users i) ∧
      s'.subProcess = s.subProcess ∧ (s'.openFds = s.openFds ↔ ¬ ForkFails s e) := by
  cases e with
  | accept result =>
    obtain ⟨rest, -, rfl⟩ := accept_eq hstep
    match result with
    | .failed => exact ⟨rfl, fun _ _ => rfl, rfl, iff_of_true rfl id⟩
    | .connected connfd pipefd0 pipefd1 pid =>
      by_cases hlimit : userLimit ≤ s.userCount
      · have hno : ¬ ForkFails s (.accept (.connected connfd pipefd0 pipefd1 pid)) := by
          cases pid
          · exact not_lt.mpr hlimit
          · exact id
        have hrefused : s.acceptBranch (.connected connfd pipefd0 pipefd1 pid) =
            { s with backlog := s.backlog.taken 1 } := if_pos hlimit
        rw [hrefused]
        exact ⟨rfl, fun _ _ => rfl, rfl, iff_of_true rfl hno⟩
      · obtain rfl : pid = none := hfail.resolve_right hlimit
        obtain ⟨-, -, -, h1, -⟩ := hok
        have hfork : ForkFails s (.accept (.connected connfd pipefd0 pipefd1 none)) := not_le.mp hlimit
        simp only [Server.acceptBranch, if_neg hlimit]
        refine ⟨rfl, fun i hi => Function.update_of_ne hi.ne _ _, rfl,
          iff_of_false (fun heq => ?_) (not_not.mpr hfork)⟩
        have : pipefd1 ∈ s.openFds := by
          rw [← heq]
          simp [mem_openFds, Server.forkFails]
        exact this h1
  | _ => exact hfail.elim

/-! ## Runs -/

/-- The open descriptors are accounted for just if no `fork` has failed; and a join that
fails for another reason leaves everything as it was. -/
theorem files_accounted_iff {s0 : Server} {es : List Event} (h0 : Opened epollfd sigPipefd1 s0)
    (hrun : Exec Legal step s0 es s) :
    (Accounted epollfd sigPipefd1 s ↔ Exec (fun s e => Legal s e ∧ ¬ ForkFails s e) step s0 es s) ∧
      ∀ e s', Legal s e → JoinFails s e → step s e = some s' →
        s'.userCount = s.userCount ∧ (∀ i, i < s.userCount → s'.users i = s.users i) ∧
        s'.subProcess = s.subProcess ∧ (s'.openFds = s.openFds ↔ ¬ ForkFails s e) := by
  obtain ⟨hinit, hfds⟩ := h0
  have hr0 := roster_init hinit
  have hno : ∀ fd k, s0.files fd ≠ some (.pipe k) := hinit.2.2.2.2.2.2.2.1
  have ho0 : OwnOpen epollfd sigPipefd1 s0 := by
    intro fd hown
    obtain ⟨f, hf⟩ := Option.ne_none_iff_exists'.mp ((hfds fd).mpr hown)
    exact ⟨f, hf, fun k hk => hno fd k (hk ▸ hf)⟩
  have hp0 : OthersPipes epollfd sigPipefd1 s0 :=
    fun fd f hf => .inl ((hfds fd).mp (by simp [mem_openFds, hf]))
  have hkeep : ∀ s e s', Roster s ∧ OwnOpen epollfd sigPipefd1 s → Legal s e → step s e = some s' →
      Roster s' ∧ OwnOpen epollfd sigPipefd1 s' :=
    fun s e s' hi hok hs => ⟨roster_step hi.1 hok hs, hi.2.step hi.1 hok hs⟩
  refine ⟨⟨fun ha => ?_, fun hclean => ?_⟩, fun e s' => joinFails_frame⟩
  · refine (hrun.keeps_or_marked (P := fun s e => ¬ ForkFails s e)
      (D := fun s => Roster s ∧ Leaked epollfd sigPipefd1 s) hkeep ?_ ?_ ⟨hr0, ho0⟩).resolve_right ?_
    · exact fun s e s' hi hok hfork hs =>
        ⟨roster_step hi.1 hok hs, leaked_of_forkFails hi.2 hok (not_not.mp hfork) hs⟩
    · exact fun s e s' hi hok hs => ⟨roster_step hi.1 hok hs, hi.2.step hi.1 hok hs⟩
    · rintro ⟨hr, hl⟩
      exact hl.not_accounted hr ha
  · obtain ⟨⟨hr, ho⟩, hp⟩ := hclean.invariant
      (I := fun s => (Roster s ∧ OwnOpen epollfd sigPipefd1 s) ∧ OthersPipes epollfd sigPipefd1 s)
      (fun s e s' hi hok hs => ⟨hkeep s e s' hi.1 hok.1 hs, hi.2.step hi.1.1 hok.1 hok.2 hs⟩)
      ⟨⟨hr0, ho0⟩, hp0⟩
    exact accounted_of_others hr ho hp

theorem opened_start : Opened 4 6 start := by
  refine ⟨init_start, fun fd => ?_⟩
  simp only [mem_openFds, start, OwnFd]
  split_ifs <;> simp <;> omega

/-- Two joins, an `accept` that fails, and a child that exits and is reaped. -/
def accountedEvents : List Event :=
  joinEvents 7 8 9 (some 100) ++ joinEvents 7 9 10 (some 101) ++
    [.connect, .epollWait [3], .accept .failed, .parentStep true, .childDies 0] ++ sigchldEvents ++
    [.waitpid (some 0)]

theorem files_accounted_two : ∃ s : Server, Accounted 4 6 s ∧ s.userCount = 1 ∧ 9 ∈ s.openFds := by
  let s := (play (fun s e => Legal s e ∧ ¬ ForkFails s e) step start accountedEvents).get (by decide)
  have hclean : Exec (fun s e => Legal s e ∧ ¬ ForkFails s e) step start accountedEvents s :=
    exec_of_play (Option.some_get _).symm
  have hrun : Exec Legal step start accountedEvents s := hclean.mono fun _ _ h => h.1
  have hopen : s.files 9 = some (.pipe 1) := by decide
  exact ⟨s, (files_accounted_iff opened_start hrun).1.mpr hclean, by decide, by simp [mem_openFds, hopen]⟩

/-- A `fork` that fails: both ends of its pipe stay open, with nobody connected. -/
theorem files_unaccounted : ∃ s : Server, Reach (Opened 4 6) Legal step s ∧ s.userCount = 0 ∧
    8 ∈ s.openFds ∧ 9 ∈ s.openFds ∧ ¬ Accounted 4 6 s := by
  let s := (play Legal step start (joinEvents 7 8 9 none)).get (by decide)
  have hs : Reach (Opened 4 6) Legal step s := reach_of_play opened_start (Option.some_get _).symm
  have h8 : s.files 8 = some .orphan := by decide
  have h9 : s.files 9 = some .orphan := by decide
  have hcount : s.userCount = 0 := by decide
  refine ⟨s, hs, hcount, by simp [mem_openFds, h8], by simp [mem_openFds, h9], fun ha => ?_⟩
  rcases (ha 8).mp (by simp [mem_openFds, h8]) with hown | ⟨i, ⟨h0, hi⟩, -⟩
  · exact absurd hown (by decide)
  · omega

end LinuxServer.ShmChat
