import LinuxServer.ShmChatRoster

/-!
# Pids without a child

`sub_process` is to be -1 for every pid but those of the entries.  The `waitpid` loop
clears the pid of a dead child and then sets that of the entry which moves into the gap;
where the dead child has the last entry, that is its own.
-/

namespace LinuxServer.ShmChat

variable {s s' : Server} {k : ℕ} {e : Event} {p : ℤ}

/-- `sub_process[p]` is -1, or the index of an entry with the pid `p`. -/
def Mapped (s : Server) (p : ℤ) : Prop :=
  s.subProcess p = -1 ∨ (0 ≤ s.subProcess p ∧ s.subProcess p < s.userCount) ∧
    (s.users (s.subProcess p)).pid = p

/-- `sub_process` is the exact inverse of the roster. -/
def PidMapExact (s : Server) : Prop := ∀ p, 0 ≤ p → p < processLimit → Mapped s p

/-- A reaped child does not have the last entry. -/
def LeavesInside (s : Server) (e : Event) : Prop := ∀ k ∈ e.reaped, slot s k ≠ s.userCount - 1

instance (s : Server) (e : Event) : Decidable (LeavesInside s e) :=
  inferInstanceAs (Decidable (∀ k ∈ _, _))

/-- The children have pids with a slot in `sub_process`. -/
def PidsInRange (s : Server) : Prop :=
  ∀ k, Unreaped s k → 0 ≤ (s.child k).pid ∧ (s.child k).pid < processLimit

theorem Mapped.congr (h : Mapped s p) (hsub : s'.subProcess p = s.subProcess p)
    (hcount : s.userCount ≤ s'.userCount) (husers : ∀ i, i < s.userCount → s'.users i = s.users i) :
    Mapped s' p := by
  rcases h with h | ⟨⟨h0, h1⟩, h2⟩
  · exact .inl (hsub.trans h)
  · exact .inr ⟨⟨hsub ▸ h0, by omega⟩, by rw [hsub, husers _ h1, h2]⟩

theorem Mapped.join (h : Mapped s p) (hc : 0 ≤ s.userCount) (connfd pipefd0 pipefd1 pid : ℤ) :
    Mapped (joined s connfd pipefd0 pipefd1 pid) p := by
  have hn : (joined s connfd pipefd0 pipefd1 pid).userCount = s.userCount + 1 := rfl
  rcases eq_or_ne p pid with rfl | hp
  · have hself : (joined s connfd pipefd0 pipefd1 p).subProcess p = s.userCount := by
      simp [joined, Server.openPipe, Server.join]
    exact .inr ⟨by omega, by rw [hself, joined_users_self]⟩
  · refine h.congr ?_ (by omega) fun i hi => joined_users_of_ne _ _ _ _ (by omega)
    simp [joined, Server.openPipe, Server.join, hp]

/-- The last entry moves into the gap, and `sub_process` follows it. -/
theorem Mapped.reap (h : Mapped s p) (hr : Roster s) (hk : Unreaped s k)
    (hinside : slot s k ≠ s.userCount - 1) : Mapped (s.reap k) p := by
  have h0 := hr.slot_pos k hk
  have h1 := hr.slot_lt k hk
  have hself : (s.users (slot s k)).pid = (s.child k).pid := (hr.lists k hk).1
  have hn := reap_count hr hk
  have husers := reap_users hr hk
  have hsub : (s.reap k).subProcess p = if p = (s.users (s.userCount - 1)).pid then slot s k
      else if p = (s.child k).pid then -1 else s.subProcess p := by
    rw [reap_eq hr hk]
    simp only [Function.update_apply]
  by_cases hlast : p = (s.users (s.userCount - 1)).pid
  · rw [if_pos hlast] at hsub
    refine .inr ⟨by omega, ?_⟩
    rw [hsub, husers, if_pos rfl, hlast]
  · rw [if_neg hlast] at hsub
    by_cases hdead : p = (s.child k).pid
    · exact .inl (by rw [hsub, if_pos hdead])
    · rw [if_neg hdead] at hsub
      rcases h with h | ⟨⟨h2, h3⟩, h4⟩
      · exact .inl (hsub.trans h)
      · have hgap : s.subProcess p ≠ slot s k := fun e => hdead (by rw [← h4, e, hself])
        have hend : s.subProcess p ≠ s.userCount - 1 := fun e => hlast (by rw [← h4, e])
        exact .inr ⟨by omega, by rw [hsub, husers, if_neg hgap, h4]⟩

/-- A dead child with the last entry is entered again right after it is cleared. -/
theorem not_mapped_reap (hr : Roster s) (hk : Unreaped s k) (hlast : slot s k = s.userCount - 1) :
    ¬ Mapped (s.reap k) (s.child k).pid := by
  have h0 := hr.slot_pos k hk
  have hself : (s.users (s.userCount - 1)).pid = (s.child k).pid := hlast ▸ (hr.lists k hk).1
  have hn := reap_count hr hk
  have hsub : (s.reap k).subProcess (s.child k).pid = s.userCount - 1 := by
    rw [reap_eq hr hk]
    simp [hself, hlast]
  rintro (h | ⟨⟨-, h⟩, -⟩) <;> omega

theorem PidMapExact.step (h : PidMapExact s) (hr : Roster s) (hok : Legal s e) (hinside : LeavesInside s e)
    (hstep : ShmChat.step s e = some s') : PidMapExact s' := by
  intro p hp0 hp
  have hm := h p hp0 hp
  cases roster_move hstep with
  | same e s' hs =>
    exact hm.congr (by rw [hs.subProcess]) (by rw [hs.userCount]) fun i _ => by rw [hs.users]
  | forkFails connfd pipefd0 pipefd1 s' hcount hs =>
    refine hm.congr (by rw [hs.subProcess]; rfl) (by rw [hs.userCount]; rfl) fun i hi => ?_
    rw [hs.users]
    exact Function.update_of_ne (by omega) _ _
  | join connfd pipefd0 pipefd1 pid s' hcount hs =>
    refine (hm.join hr.count connfd pipefd0 pipefd1 pid).congr ?_ ?_ fun i _ => ?_
    · rw [hs.subProcess]
      rfl
    · rw [hs.userCount]
      rfl
    · rw [hs.users]
      rfl
  | reap k => exact hm.reap hr (unreaped_of_zombie hok.1 hok.2) (hinside k rfl)

theorem PidsInRange.step (h : PidsInRange s) (hr : Roster s) (hok : Legal s e)
    (hstep : ShmChat.step s e = some s') : PidsInRange s' := by
  intro k hk
  cases roster_move hstep with
  | same e s' hs =>
    rw [hs.pid]
    exact h k (hs.unreaped.mp hk)
  | forkFails connfd pipefd0 pipefd1 s' hcount hs =>
    rw [hs.pid]
    exact h k (hs.unreaped.mp hk)
  | join connfd pipefd0 pipefd1 pid s' hcount hs =>
    rw [hs.pid]
    suffices hj : 0 ≤ ((joined s connfd pipefd0 pipefd1 pid).child k).pid ∧
        ((joined s connfd pipefd0 pipefd1 pid).child k).pid < processLimit from hj
    rcases unreaped_joined.mp (hs.unreaped.mp hk) with rfl | ⟨hkf, hun⟩
    · obtain ⟨h1, h2, -⟩ := hok.2.2.2.2.2.2.2 pid rfl
      rw [joined_child_self]
      exact ⟨h1.le, h2⟩
    · rw [joined_child_of_ne _ _ _ _ hkf]
      exact h k hun
  | reap l =>
    have hl := unreaped_of_zombie hok.1 hok.2
    rw [(reap_pid hr hl k).1]
    exact h k ((unreaped_reap hr hl).mp hk).2

/-- As long as no child with the last entry is reaped, `sub_process` is the exact inverse
of the roster; the first one that is leaves its pid behind. -/
theorem pid_map_exact (h : Reach Init (fun s e => Legal s e ∧ LeavesInside s e) step s) :
    PidMapExact s ∧
      ∀ e s', Legal s e → step s e = some s' → (PidMapExact s' ↔ LeavesInside s e) := by
  obtain ⟨hr, hp, hm⟩ := h.invariant (I := fun s => Roster s ∧ PidsInRange s ∧ PidMapExact s)
    (fun s hi => ⟨roster_init hi, fun k hk => by
      have := hk.1
      obtain ⟨-, -, -, -, -, -, -, -, -, -, -, hforked, -⟩ := hi
      omega, fun p h0 h1 => .inl (hi.2.2.2.2.1 p h0 h1)⟩)
    fun s e s' hi hok hs => ⟨roster_step hi.1 hok.1 hs, hi.2.1.step hi.1 hok.1 hs,
      hi.2.2.step hi.1 hok.1 hok.2 hs⟩
  refine ⟨hm, fun e s' hok hstep => ⟨fun hm' => ?_, fun hin => hm.step hr hok hin hstep⟩⟩
  intro k hk hlast
  cases e with
  | waitpid l =>
    obtain rfl : l = some k := hk
    have hun := unreaped_of_zombie hok.1 hok.2
    obtain ⟨-, rfl⟩ := waitpid_some_eq hstep
    obtain ⟨h0, h1⟩ := hp k hun
    exact not_mapped_reap hr hun hlast (hm' _ h0 h1)
  | _ => cases hk

/-- Of three children the first and the third exit, and are reaped in one loop; the third
has moved to the first entry by then. -/
theorem pid_map_exact_three : PidMapExact ((play (fun s e => Legal s e ∧ LeavesInside s e) step start
    (joinEvents 7 8 9 (some 100) ++ joinEvents 7 9 10 (some 101) ++ joinEvents 7 10 11 (some 102) ++
      [.childDies 0, .childDies 2] ++ sigchldEvents ++ [.waitpid (some 0), .waitpid (some 2)])).get
    (by decide)) :=
  (pid_map_exact (reach_of_play init_start (Option.some_get _).symm)).1

/-- The only child exits: its pid leads to an entry that is not there. -/
theorem pid_map_inexact : ∃ s : Server, Reach Init Legal step s ∧ s.userCount = 0 ∧
    s.subProcess 100 = 0 ∧ ¬ PidMapExact s := by
  let s := (play Legal step start (joinEvents 7 8 9 (some 100) ++ [.childDies 0] ++ sigchldEvents ++
    [.waitpid (some 0), .waitpid none, .parentStep true, .parentStep true])).get (by decide)
  have hs : Reach Init Legal step s := reach_of_play init_start (Option.some_get _).symm
  have hcount : s.userCount = 0 := by decide
  have hsub : s.subProcess 100 = 0 := by decide
  refine ⟨s, hs, hcount, hsub, fun h => ?_⟩
  rcases h 100 (by decide) (by decide) with h | ⟨⟨-, h⟩, -⟩ <;> omega

end LinuxServer.ShmChat
