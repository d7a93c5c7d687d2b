import LinuxServer.ShmChatSteps

/-!
# The roster of the parent

`users[0..user_count)` lists the children that were forked and not reaped, and
`sub_process` is its inverse.  A child keeps the number it was forked with, so the
numbers stay apart only while no reaping moves the entry of a child that runs.
-/

namespace LinuxServer.ShmChat

variable {s s' : Server} {k : ℕ}

/-- A child that was forked and not reaped. -/
def Unreaped (s : Server) (k : ℕ) : Prop := k < s.forked ∧ (s.child k).pc.isReaped = false

/-- The entry `i` is that of the child `k`. -/
def Lists (s : Server) (i : ℤ) (k : ℕ) : Prop :=
  (s.users i).pid = (s.child k).pid ∧ (s.users i).pipefd0 = (s.child k).pipefd0

/-- The index under which the parent finds a child. -/
def slot (s : Server) (k : ℕ) : ℤ := s.subProcess (s.child k).pid

structure Roster (s : Server) : Prop where
  count : 0 ≤ s.userCount
  limit : s.userCount ≤ userLimit
  entry : ∀ i, 0 ≤ i → i < s.userCount → ∃ k, Unreaped s k ∧ Lists s i k
  slot_pos : ∀ k, Unreaped s k → 0 ≤ slot s k
  slot_lt : ∀ k, Unreaped s k → slot s k < s.userCount
  lists : ∀ k, Unreaped s k → Lists s (slot s k) k
  inverse : ∀ i, 0 ≤ i → i < s.userCount → s.subProcess (s.users i).pid = i
  pid_inj : ∀ k l, Unreaped s k → Unreaped s l → (s.child k).pid = (s.child l).pid → k = l
  file : ∀ k, Unreaped s k → s.files (s.child k).pipefd0 = some (.pipe k)
  unreaped : ∀ fd k, s.files fd = some (.pipe k) → Unreaped s k ∧ fd = (s.child k).pipefd0
  listen : s.files s.listenfd = some .listen
  sig : s.files s.sigPipefd0 = some .sig

theorem Same.unreaped (h : Same s s') : Unreaped s' k ↔ Unreaped s k := by
  rw [Unreaped, Unreaped, h.forked, h.reaped]

theorem Same.lists (h : Same s s') {i : ℤ} : Lists s' i k ↔ Lists s i k := by
  rw [Lists, Lists, h.users, h.pid, h.pipefd0]

theorem Same.slot (h : Same s s') : slot s' k = slot s k := by
  rw [ShmChat.slot, ShmChat.slot, h.subProcess, h.pid]

theorem Roster.same (h : Roster s) (hs : Same s s') : Roster s' := by
  refine ⟨?_, ?_, fun i h0 hi => ?_, fun k hk => ?_, fun k hk => ?_, fun k hk => ?_, fun i h0 hi => ?_,
    fun k l hk hl hp => ?_, fun k hk => ?_, fun fd k hf => ?_, ?_, ?_⟩
  · rw [hs.userCount]
    exact h.count
  · rw [hs.userCount]
    exact h.limit
  · rw [hs.userCount] at hi
    obtain ⟨k, hk, hl⟩ := h.entry i h0 hi
    exact ⟨k, hs.unreaped.mpr hk, hs.lists.mpr hl⟩
  · rw [hs.slot]
    exact h.slot_pos k (hs.unreaped.mp hk)
  · rw [hs.slot, hs.userCount]
    exact h.slot_lt k (hs.unreaped.mp hk)
  · rw [hs.slot]
    exact hs.lists.mpr (h.lists k (hs.unreaped.mp hk))
  · rw [hs.userCount] at hi
    rw [hs.subProcess, hs.users]
    exact h.inverse i h0 hi
  · rw [hs.pid, hs.pid] at hp
    exact h.pid_inj k l (hs.unreaped.mp hk) (hs.unreaped.mp hl) hp
  · rw [hs.files, hs.pipefd0]
    exact h.file k (hs.unreaped.mp hk)
  · rw [hs.files] at hf
    obtain ⟨hk, rfl⟩ := h.unreaped fd k hf
    exact ⟨hs.unreaped.mpr hk, (hs.pipefd0 k).symm⟩
  · rw [hs.files, hs.listenfd]
    exact h.listen
  · rw [hs.files, hs.sigPipefd0]
    exact h.sig

/-- An entry is listed where the parent finds its child. -/
theorem Roster.slot_eq (h : Roster s) {i : ℤ} (h0 : 0 ≤ i) (hi : i < s.userCount) (hl : Lists s i k) :
    slot s k = i := by
  rw [slot, ← hl.1]
  exact h.inverse i h0 hi

theorem Roster.slot_inj (h : Roster s) {l : ℕ} (hk : Unreaped s k) (hl : Unreaped s l)
    (he : slot s k = slot s l) : k = l := by
  refine h.pid_inj k l hk hl ?_
  rw [← (h.lists k hk).1, ← (h.lists l hl).1, he]

/-- What is beyond `user_count` in `users` does not matter. -/
theorem Roster.forkFails (h : Roster s) {connfd pipefd0 pipefd1 : ℤ} (hfd0 : s.files pipefd0 = none)
    (hfd1 : s.files pipefd1 = none) :
    Roster ((s.openPipe connfd pipefd0 pipefd1).forkFails pipefd0 pipefd1) := by
  have husers : ∀ i, i ≠ s.userCount →
      ((s.openPipe connfd pipefd0 pipefd1).forkFails pipefd0 pipefd1).users i = s.users i := by
    intro i hi
    simp [Server.openPipe, Server.forkFails, hi]
  have hfiles : ∀ fd f, s.files fd = some f →
      ((s.openPipe connfd pipefd0 pipefd1).forkFails pipefd0 pipefd1).files fd = some f := by
    intro fd f hf
    have h0 : fd ≠ pipefd0 := by rintro rfl; simp [hfd0] at hf
    have h1 : fd ≠ pipefd1 := by rintro rfl; simp [hfd1] at hf
    simp [Server.openPipe, Server.forkFails, h0, h1, hf]
  refine ⟨h.count, h.limit, fun i h0 hi => ?_, h.slot_pos, h.slot_lt, fun k hk => ?_, fun i h0 hi => ?_,
    h.pid_inj, fun k hk => hfiles _ _ (h.file k hk), fun fd k hf => ?_, hfiles _ _ h.listen, hfiles _ _ h.sig⟩
  · obtain ⟨k, hk, hl⟩ := h.entry i h0 hi
    have hne : i ≠ s.userCount := by
      simp only [Server.openPipe, Server.forkFails] at hi
      omega
    refine ⟨k, hk, ?_⟩
    rw [Lists, husers i hne]
    exact hl
  · have hne : slot s k ≠ s.userCount := by have := h.slot_lt k hk; omega
    have := h.lists k hk
    rw [Lists, ← husers _ hne] at this
    exact this
  · have hne : i ≠ s.userCount := by
      simp only [Server.openPipe, Server.forkFails] at hi
      omega
    rw [husers i hne]
    exact h.inverse i h0 hi
  · refine h.unreaped fd k ?_
    simp only [Server.openPipe, Server.forkFails, Function.update_apply] at hf
    split at hf
    · simp at hf
    · split at hf
      · simp at hf
      · exact hf

/-! ## A join -/

/-- The state after `socketpair`, `fork` and the bookkeeping for a new child. -/
def joined (s : Server) (connfd pipefd0 pipefd1 pid : ℤ) : Server :=
  (s.openPipe connfd pipefd0 pipefd1).join pid pipefd0

theorem joined_users_self (connfd pipefd0 pipefd1 pid : ℤ) :
    (joined s connfd pipefd0 pipefd1 pid).users s.userCount = ⟨connfd, pid, pipefd0, pipefd1⟩ := by
  simp [joined, Server.openPipe, Server.join]

theorem joined_users_of_ne (connfd pipefd0 pipefd1 pid : ℤ) {i : ℤ} (hi : i ≠ s.userCount) :
    (joined s connfd pipefd0 pipefd1 pid).users i = s.users i := by
  simp [joined, Server.openPipe, Server.join, hi]

theorem joined_child_self (connfd pipefd0 pipefd1 pid : ℤ) :
    (joined s connfd pipefd0 pipefd1 pid).child s.forked = Server.newChild pid s.userCount pipefd0 := by
  simp [joined, Server.openPipe, Server.join]

theorem joined_child_of_ne (connfd pipefd0 pipefd1 pid : ℤ) (hk : k ≠ s.forked) :
    (joined s connfd pipefd0 pipefd1 pid).child k = s.child k := by
  simp [joined, Server.openPipe, Server.join, hk]

theorem unreaped_joined {connfd pipefd0 pipefd1 pid : ℤ} :
    Unreaped (joined s connfd pipefd0 pipefd1 pid) k ↔ k = s.forked ∨ k ≠ s.forked ∧ Unreaped s k := by
  rcases eq_or_ne k s.forked with rfl | hk
  · simp [Unreaped, Server.newChild, ChildPc.isReaped, joined, Server.openPipe, Server.join]
  · have : k < s.forked + 1 ↔ k < s.forked := by omega
    simp [Unreaped, joined_child_of_ne _ _ _ _ hk, hk]
    simp [joined, Server.openPipe, Server.join, this]

theorem Roster.join (h : Roster s) {connfd pipefd0 pipefd1 pid : ℤ} (hcount : s.userCount < userLimit)
    (hfd0 : s.files pipefd0 = none)
    (hpid : ∀ k < s.forked, (s.child k).pc.isReaped = false → (s.child k).pid ≠ pid) :
    Roster (joined s connfd pipefd0 pipefd1 pid) := by
  have hslot_self : slot (joined s connfd pipefd0 pipefd1 pid) s.forked = s.userCount := by
    rw [slot, joined_child_self]
    simp [joined, Server.openPipe, Server.join, Server.newChild]
  -- no child that was not reaped has the pid of the new one
  have hslot : ∀ k, k ≠ s.forked → Unreaped s k →
      slot (joined s connfd pipefd0 pipefd1 pid) k = slot s k := by
    intro k hk hun
    have := hpid k hun.1 hun.2
    rw [slot, joined_child_of_ne _ _ _ _ hk]
    simp [slot, joined, Server.openPipe, Server.join, this]
  have hlists : ∀ i k, k ≠ s.forked → i ≠ s.userCount → Lists s i k →
      Lists (joined s connfd pipefd0 pipefd1 pid) i k := by
    intro i k hk hi hl
    rw [Lists, joined_users_of_ne _ _ _ _ hi, joined_child_of_ne _ _ _ _ hk]
    exact hl
  have hlists_self : Lists (joined s connfd pipefd0 pipefd1 pid) s.userCount s.forked := by
    rw [Lists, joined_users_self, joined_child_self]
    exact ⟨rfl, rfl⟩
  have hfiles : ∀ fd f, s.files fd = some f → (joined s connfd pipefd0 pipefd1 pid).files fd = some f := by
    intro fd f hf
    have h0 : fd ≠ pipefd0 := by rintro rfl; simp [hfd0] at hf
    simp [joined, Server.openPipe, Server.join, h0, hf]
  have hn : (joined s connfd pipefd0 pipefd1 pid).userCount = s.userCount + 1 := rfl
  refine ⟨?_, ?_, fun i h0 hi => ?_, fun k hk => ?_, fun k hk => ?_, fun k hk => ?_, fun i h0 hi => ?_,
    fun k l hk hl hp => ?_, fun k hk => ?_, fun fd k hf => ?_, hfiles _ _ h.listen, hfiles _ _ h.sig⟩
  · have := h.count
    omega
  · omega
  · rcases eq_or_ne i s.userCount with rfl | hne
    · exact ⟨s.forked, unreaped_joined.mpr (.inl rfl), hlists_self⟩
    · obtain ⟨k, hk, hl⟩ := h.entry i h0 (by omega)
      have hkf : k ≠ s.forked := by have := hk.1; omega
      exact ⟨k, unreaped_joined.mpr (.inr ⟨hkf, hk⟩), hlists i k hkf hne hl⟩
  · rcases unreaped_joined.mp hk with rfl | ⟨hkf, hk⟩
    · rw [hslot_self]
      exact h.count
    · rw [hslot k hkf hk]
      exact h.slot_pos k hk
  · rcases unreaped_joined.mp hk with rfl | ⟨hkf, hk⟩
    · rw [hslot_self]
      omega
    · rw [hslot k hkf hk]
      have := h.slot_lt k hk
      omega
  · rcases unreaped_joined.mp hk with rfl | ⟨hkf, hk⟩
    · rw [hslot_self]
      exact hlists_self
    · rw [hslot k hkf hk]
      have := h.slot_lt k hk
      exact hlists _ k hkf (by omega) (h.lists k hk)
  · rcases eq_or_ne i s.userCount with rfl | hne
    · rw [joined_users_self]
      simp [joined, Server.openPipe, Server.join]
    · obtain ⟨k, hk, hl⟩ := h.entry i h0 (by omega)
      have hp : (s.users i).pid ≠ pid := by
        rw [hl.1]
        exact hpid k hk.1 hk.2
      rw [joined_users_of_ne _ _ _ _ hne]
      simpa [joined, Server.openPipe, Server.join, hp] using h.inverse i h0 (by omega)
  · rcases unreaped_joined.mp hk with rfl | ⟨hkf, hk⟩ <;>
      rcases unreaped_joined.mp hl with rfl | ⟨hlf, hl⟩
    · rfl
    · rw [joined_child_self, joined_child_of_ne _ _ _ _ hlf] at hp
      exact absurd hp.symm (hpid l hl.1 hl.2)
    · rw [joined_child_self, joined_child_of_ne _ _ _ _ hkf] at hp
      exact absurd hp (hpid k hk.1 hk.2)
    · rw [joined_child_of_ne _ _ _ _ hkf, joined_child_of_ne _ _ _ _ hlf] at hp
      exact h.pid_inj k l hk hl hp
  · rcases unreaped_joined.mp hk with rfl | ⟨hkf, hk⟩
    · rw [joined_child_self]
      simp [joined, Server.openPipe, Server.join, Server.newChild]
    · rw [joined_child_of_ne _ _ _ _ hkf]
      exact hfiles _ _ (h.file k hk)
  · rw [unreaped_joined]
    rcases eq_or_ne fd pipefd0 with rfl | hfd
    · obtain rfl : s.forked = k := by simpa [joined, Server.openPipe, Server.join] using hf
      exact ⟨.inl rfl, by rw [joined_child_self]; rfl⟩
    · have hf' : s.files fd = some (.pipe k) := by
        simpa [joined, Server.openPipe, Server.join, hfd] using hf
      obtain ⟨hk, rfl⟩ := h.unreaped fd k hf'
      have hkf : k ≠ s.forked := by have := hk.1; omega
      exact ⟨.inr ⟨hkf, hk⟩, by rw [joined_child_of_ne _ _ _ _ hkf]⟩

/-! ## A reaped child -/

theorem reap_eq (h : Roster s) (hk : Unreaped s k) : s.reap k =
    { s.setChild k { s.child k with pc := .reaped } with
      subProcess := Function.update (Function.update s.subProcess (s.child k).pid (-1))
        (s.users (s.userCount - 1)).pid (slot s k)
      files := Function.update s.files (s.child k).pipefd0 none
      userCount := s.userCount - 1
      users := Function.update s.users (slot s k) (s.users (s.userCount - 1)) } := by
  have h0 := h.slot_pos k hk
  have h1 := h.slot_lt k hk
  have h2 := h.limit
  have hno : ¬ (s.subProcess (s.child k).pid < 0 ∨ userLimit < s.subProcess (s.child k).pid) := by
    rw [slot] at h0 h1
    omega
  have hfd : (s.users (s.subProcess (s.child k).pid)).pipefd0 = (s.child k).pipefd0 := (h.lists k hk).2
  unfold Server.reap
  simp only [Server.setChild, if_neg hno, hfd]
  rfl

theorem unreaped_reap (h : Roster s) (hk : Unreaped s k) {l : ℕ} :
    Unreaped (s.reap k) l ↔ l ≠ k ∧ Unreaped s l := by
  rw [reap_eq h hk]
  rcases eq_or_ne l k with rfl | hl
  · simp [Unreaped, Server.setChild, ChildPc.isReaped]
  · simp [Unreaped, Server.setChild, hl]

theorem reap_pid (h : Roster s) (hk : Unreaped s k) (l : ℕ) :
    ((s.reap k).child l).pid = (s.child l).pid ∧ ((s.reap k).child l).pipefd0 = (s.child l).pipefd0 ∧
      ((s.reap k).child l).idx = (s.child l).idx := by
  rw [reap_eq h hk]
  rcases eq_or_ne l k with rfl | hl <;> simp [Server.setChild, *]

/-- The entry of another child stays or, if it is the last one, moves into the gap. -/
theorem slot_reap (h : Roster s) (hk : Unreaped s k) {l : ℕ} (hl : Unreaped s l) (hlk : l ≠ k) :
    slot (s.reap k) l = if slot s l = s.userCount - 1 then slot s k else slot s l := by
  have hpid : (s.child l).pid ≠ (s.child k).pid := fun e => hlk (h.pid_inj l k hl hk e)
  have hlast : (s.child l).pid = (s.users (s.userCount - 1)).pid ↔ slot s l = s.userCount - 1 := by
    constructor
    · intro e
      have := h.slot_pos l hl
      have := h.slot_lt l hl
      rw [slot, e]
      exact h.inverse _ (by omega) (by omega)
    · intro e
      rw [← e]
      exact (h.lists l hl).1.symm
  rw [slot, (reap_pid h hk l).1, reap_eq h hk]
  by_cases hc : slot s l = s.userCount - 1
  · simp [hlast.mpr hc, hc]
  · have hne : (s.child l).pid ≠ (s.users (s.userCount - 1)).pid := fun e => hc (hlast.mp e)
    rw [if_neg hc]
    simp [hpid, hne, slot]

theorem reap_users (h : Roster s) (hk : Unreaped s k) (i : ℤ) :
    (s.reap k).users i = s.users (if i = slot s k then s.userCount - 1 else i) := by
  rw [reap_eq h hk]
  simp only [Function.update_apply]
  split <;> rfl

theorem reap_count (h : Roster s) (hk : Unreaped s k) : (s.reap k).userCount = s.userCount - 1 := by
  rw [reap_eq h hk]

/-- The child of an entry that is left, and where its entry was. -/
theorem reap_entry (h : Roster s) (hk : Unreaped s k) {i : ℤ} (h0 : 0 ≤ i) (hi : i < s.userCount - 1) :
    ∃ l, l ≠ k ∧ Unreaped s l ∧ slot s l = (if i = slot s k then s.userCount - 1 else i) ∧
      Lists s (if i = slot s k then s.userCount - 1 else i) l := by
  obtain ⟨l, hl, hll⟩ := h.entry (if i = slot s k then s.userCount - 1 else i)
    (by split <;> omega) (by split <;> omega)
  have hsl := h.slot_eq (by split <;> omega) (by split <;> omega) hll
  refine ⟨l, ?_, hl, hsl, hll⟩
  rintro rfl
  split at hsl <;> omega

theorem Roster.reap (h : Roster s) (hk : Unreaped s k) : Roster (s.reap k) := by
  have hd0 := h.slot_pos k hk
  have hd1 := h.slot_lt k hk
  have hn := reap_count h hk
  have hlisten : (s.reap k).listenfd = s.listenfd ∧ (s.reap k).sigPipefd0 = s.sigPipefd0 := by
    rw [reap_eq h hk]
    exact ⟨rfl, rfl⟩
  have hfiles : ∀ fd f, s.files fd = some f → f ≠ .pipe k → (s.reap k).files fd = some f := by
    intro fd f hf hne
    have hfd : fd ≠ (s.child k).pipefd0 := by
      rintro rfl
      rw [h.file k hk] at hf
      exact hne (Option.some.inj hf).symm
    rw [reap_eq h hk]
    simp [hfd, hf]
  have hslot_lt : ∀ l, Unreaped s l → l ≠ k → slot (s.reap k) l < s.userCount - 1 := by
    intro l hl hlk
    have h1 := h.slot_lt l hl
    have h2 : slot s l ≠ slot s k := fun e => hlk (h.slot_inj hl hk e)
    rw [slot_reap h hk hl hlk]
    split <;> omega
  have hlists : ∀ l, Unreaped s l → l ≠ k → Lists (s.reap k) (slot (s.reap k) l) l := by
    intro l hl hlk
    obtain ⟨hp, hf, -⟩ := reap_pid h hk l
    have h2 : slot s l ≠ slot s k := fun e => hlk (h.slot_inj hl hk e)
    have hsource : (if slot (s.reap k) l = slot s k then s.userCount - 1 else slot (s.reap k) l) =
        slot s l := by
      rw [slot_reap h hk hl hlk]
      by_cases hlast : slot s l = s.userCount - 1
      · rw [if_pos hlast, if_pos rfl, hlast]
      · rw [if_neg hlast, if_neg h2]
    rw [Lists, hp, hf, reap_users h hk, hsource]
    exact h.lists l hl
  refine ⟨?_, ?_, fun i h0 hi => ?_, fun l hl => ?_, fun l hl => ?_, fun l hl => ?_, fun i h0 hi => ?_,
    fun l m hl hm hp => ?_, fun l hl => ?_, fun fd l hf => ?_, ?_, ?_⟩
  · omega
  · have := h.limit
    omega
  · -- the entry comes from where it was, or from the end
    obtain ⟨l, hlk, hl, -, hll⟩ := reap_entry h hk h0 (hn ▸ hi)
    refine ⟨l, (unreaped_reap h hk).mpr ⟨hlk, hl⟩, ?_⟩
    rw [Lists, reap_users h hk, (reap_pid h hk l).1, (reap_pid h hk l).2.1]
    exact hll
  · obtain ⟨hlk, hl⟩ := (unreaped_reap h hk).mp hl
    have := h.slot_pos l hl
    rw [slot_reap h hk hl hlk]
    split <;> omega
  · obtain ⟨hlk, hl⟩ := (unreaped_reap h hk).mp hl
    have := hslot_lt l hl hlk
    omega
  · obtain ⟨hlk, hl⟩ := (unreaped_reap h hk).mp hl
    exact hlists l hl hlk
  · -- `sub_process` of a moved child was patched, that of the others is as before
    obtain ⟨l, hlk, hl, hsl, hll⟩ := reap_entry h hk h0 (hn ▸ hi)
    have hpid : ((s.reap k).users i).pid = ((s.reap k).child l).pid := by
      rw [reap_users h hk, (reap_pid h hk l).1]
      exact hll.1
    rw [hpid]
    show slot (s.reap k) l = i
    rw [slot_reap h hk hl hlk, hsl]
    rw [hn] at hi
    split at hsl <;> split <;> omega
  · obtain ⟨-, hl⟩ := (unreaped_reap h hk).mp hl
    obtain ⟨-, hm⟩ := (unreaped_reap h hk).mp hm
    rw [(reap_pid h hk l).1, (reap_pid h hk m).1] at hp
    exact h.pid_inj l m hl hm hp
  · obtain ⟨hlk, hl⟩ := (unreaped_reap h hk).mp hl
    rw [(reap_pid h hk l).2.1]
    exact hfiles _ _ (h.file l hl) (by simpa using hlk)
  · rw [unreaped_reap h hk, (reap_pid h hk l).2.1]
    rw [reap_eq h hk] at hf
    simp only [Function.update_apply] at hf
    split at hf
    · cases hf
    next hfd =>
      obtain ⟨hl, rfl⟩ := h.unreaped fd l hf
      exact ⟨⟨fun e => hfd (by rw [e]), hl⟩, rfl⟩
  · rw [hlisten.1]
    exact hfiles _ _ h.listen (by simp)
  · rw [hlisten.2]
    exact hfiles _ _ h.sig (by simp)

/-! ## Every run -/

theorem unreaped_of_zombie (hk : k < s.forked) (hz : (s.child k).pc.isZombie = true) : Unreaped s k := by
  refine ⟨hk, ?_⟩
  cases hpc : (s.child k).pc <;> simp [hpc, ChildPc.isZombie, ChildPc.isReaped] at hz ⊢

theorem unreaped_of_running (hk : k < s.forked) (hrun : (s.child k).pc.running = true) : Unreaped s k := by
  refine ⟨hk, ?_⟩
  cases hpc : (s.child k).pc <;> simp [hpc, ChildPc.running, ChildPc.isReaped] at hrun ⊢

theorem roster_step {e : Event} (h : Roster s) (hok : Legal s e) (hstep : step s e = some s') :
    Roster s' := by
  cases roster_move hstep with
  | same e s' hs => exact h.same hs
  | forkFails connfd pipefd0 pipefd1 s' hcount hs =>
    obtain ⟨-, -, h0, h1, -⟩ := hok
    exact (h.forkFails h0 h1).same hs
  | join connfd pipefd0 pipefd1 pid s' hcount hs =>
    obtain ⟨-, -, h0, -, -, -, -, hp⟩ := hok
    exact (h.join hcount h0 (hp pid rfl).2.2).same hs
  | reap k => exact h.reap (unreaped_of_zombie hok.1 hok.2)

theorem roster_init (h : Init s) : Roster s := by
  obtain ⟨-, -, -, hcount, -, hlisten, hsig, hfiles, -, -, -, hforked, -⟩ := h
  have hno : ∀ k, ¬ Unreaped s k := fun k hk => by have := hk.1; omega
  refine ⟨by omega, by rw [hcount]; decide, fun i h0 hi => by omega, fun k hk => absurd hk (hno k),
    fun k hk => absurd hk (hno k), fun k hk => absurd hk (hno k), fun i h0 hi => by omega,
    fun k l hk => absurd hk (hno k), fun k hk => absurd hk (hno k), fun fd k hf => absurd hf (hfiles fd k),
    hlisten, hsig⟩

theorem roster_reach {ok : Server → Event → Prop} (hok : ∀ s e, ok s e → Legal s e)
    (h : Reach Init ok step s) : Roster s :=
  h.invariant (I := Roster) (fun _ => roster_init) fun _ _ _ hi he hs => roster_step hi (hok _ _ he) hs

/-- The users of the parent are the children that were forked and not reaped, each once
and with its own pid and pipe, `sub_process` is the inverse, and a reaped child takes
out its own entry and no other. -/
structure RosterCorrect (s : Server) : Prop where
  count : 0 ≤ s.userCount ∧ s.userCount ≤ userLimit
  entries : ∀ i, 0 ≤ i → i < s.userCount → ∃! k, Unreaped s k ∧ Lists s i k
  children : ∀ k, Unreaped s k → ∃! i, (0 ≤ i ∧ i < s.userCount) ∧ Lists s i k
  inverse : ∀ i, 0 ≤ i → i < s.userCount → s.subProcess (s.users i).pid = i
  removes : ∀ k s', Legal s (.waitpid (some k)) → step s (.waitpid (some k)) = some s' →
    s'.userCount = s.userCount - 1 ∧
    ∀ i, 0 ≤ i → i < s.userCount → ¬ Lists s i k → ∃ j, 0 ≤ j ∧ j < s'.userCount ∧ s'.users j = s.users i

/-- In every run, with joins, forks that fail and children reaped in any order, the
roster is correct. -/
theorem roster_correct (h : Reach Init Legal step s) : RosterCorrect s := by
  have hr := roster_reach (fun _ _ he => he) h
  refine ⟨⟨hr.count, hr.limit⟩, fun i h0 hi => ?_, fun k hk => ?_, hr.inverse, fun k s' hok hstep => ?_⟩
  · obtain ⟨k, hk, hl⟩ := hr.entry i h0 hi
    refine ⟨k, ⟨hk, hl⟩, fun l ⟨hl', hll⟩ => hr.slot_inj hl' hk ?_⟩
    rw [hr.slot_eq h0 hi hll, hr.slot_eq h0 hi hl]
  · exact ⟨slot s k, ⟨⟨hr.slot_pos k hk, hr.slot_lt k hk⟩, hr.lists k hk⟩,
      fun i ⟨⟨h0, hi⟩, hl⟩ => (hr.slot_eq h0 hi hl).symm⟩
  · have hk := unreaped_of_zombie hok.1 hok.2
    obtain ⟨-, rfl⟩ := waitpid_some_eq hstep
    have hd0 := hr.slot_pos k hk
    have hd1 := hr.slot_lt k hk
    refine ⟨reap_count hr hk, fun i h0 hi hno => ?_⟩
    have hne : i ≠ slot s k := by
      rintro rfl
      exact hno (hr.lists k hk)
    rw [reap_count hr hk]
    by_cases hlast : i = s.userCount - 1
    · refine ⟨slot s k, hd0, by omega, ?_⟩
      rw [reap_users hr hk, if_pos rfl, hlast]
    · refine ⟨i, h0, by omega, ?_⟩
      rw [reap_users hr hk, if_neg hne]

/-- A connection and the parent's answer to it. -/
def joinEvents (connfd pipefd0 pipefd1 : ℤ) (pid : Option ℤ) : List Event :=
  [.connect, .epollWait [3], .accept (.connected connfd pipefd0 pipefd1 pid), .parentStep true]

/-- The parent learns of a dead child and is about to reap. -/
def sigchldEvents : List Event := [.sigHandler, .epollWait [5], .parentStep true, .parentStep true]

/-- Three joins and a `fork` that fails; two children die, and one is reaped. -/
theorem roster_correct_three : RosterCorrect ((play Legal step start
    (joinEvents 7 8 9 (some 100) ++ joinEvents 7 9 10 (some 101) ++ joinEvents 7 10 11 none ++
      joinEvents 7 12 13 (some 102) ++ [.childDies 0, .childDies 2] ++ sigchldEvents ++
      [.waitpid (some 0)])).get (by decide)) :=
  roster_correct (reach_of_play init_start (Option.some_get _).symm)

/-! ## The numbers of the children -/

/-- The child that a call of `waitpid` returns. -/
def Event.reaped : Event → Option ℕ
  | .waitpid k => k
  | _ => none

/-- A reaped child has the last entry, or the child that has it runs no more. -/
def MovesNoRunning (s : Server) (e : Event) : Prop :=
  ∀ k ∈ e.reaped, slot s k = s.userCount - 1 ∨
    ∀ l < s.forked, (s.child l).pc.running = true → (s.child l).pid ≠ (s.users (s.userCount - 1)).pid

instance (s : Server) (e : Event) : Decidable (MovesNoRunning s e) :=
  inferInstanceAs (Decidable (∀ k ∈ _, _ ∨ ∀ l < _, _ → _))

/-- A child that runs has the number of its entry. -/
def InPlace (s : Server) : Prop :=
  ∀ k < s.forked, (s.child k).pc.running = true → (s.child k).idx = slot s k

theorem inPlace_same (h : InPlace s) (hs : Same s s') : InPlace s' := by
  intro k hk hrun
  rw [hs.forked] at hk
  rw [hs.idx, hs.slot]
  exact h k hk (hs.running k hrun)

theorem inPlace_step {e : Event} (h : InPlace s) (hr : Roster s) (hok : Legal s e)
    (hmove : MovesNoRunning s e) (hstep : step s e = some s') : InPlace s' := by
  cases roster_move hstep with
  | same e s' hs => exact inPlace_same h hs
  | forkFails connfd pipefd0 pipefd1 s' hcount hs =>
    refine inPlace_same ?_ hs
    exact h
  | join connfd pipefd0 pipefd1 pid s' hcount hs =>
    refine inPlace_same (s := joined s connfd pipefd0 pipefd1 pid) (fun k hk hrun => ?_) hs
    rcases eq_or_ne k s.forked with rfl | hkf
    · rw [slot, joined_child_self]
      simp [joined, Server.openPipe, Server.join, Server.newChild]
    · have hk' : k < s.forked := by
        have : k < s.forked + 1 := hk
        omega
      rw [joined_child_of_ne _ _ _ _ hkf] at hrun ⊢
      obtain ⟨-, -, -, -, -, -, -, hp⟩ := hok
      have hne := (hp pid rfl).2.2 k hk' (unreaped_of_running hk' hrun).2
      rw [h k hk' hrun, slot, slot, joined_child_of_ne _ _ _ _ hkf]
      simp [joined, Server.openPipe, Server.join, hne]
  | reap k =>
    have hk := unreaped_of_zombie hok.1 hok.2
    intro l hl hrun
    have hl' : l < s.forked := by
      rw [reap_eq hr hk] at hl
      exact hl
    -- a running child keeps its entry, since the entry that moves is not its own
    have hun : Unreaped (s.reap k) l := unreaped_of_running hl hrun
    obtain ⟨hlk, hul⟩ := (unreaped_reap hr hk).mp hun
    have hrun' : (s.child l).pc.running = true := by
      rw [reap_eq hr hk] at hrun
      simpa [Server.setChild, hlk] using hrun
    rw [(reap_pid hr hk l).2.2, h l hl' hrun', slot_reap hr hk hul hlk]
    by_cases hlast : slot s l = s.userCount - 1
    · exfalso
      rcases hmove k rfl with hlast' | hno
      · exact hlk (hr.slot_inj hul hk (hlast.trans hlast'.symm))
      · exact hno l hl' hrun' (hlast ▸ (hr.lists l hul).1.symm)
    · rw [if_neg hlast]

/-- In a run in which no reaping moves the entry of a child that runs, two children that
run have different segments. -/
theorem idx_exclusive (h : Reach Init (fun s e => Legal s e ∧ MovesNoRunning s e) step s) {l : ℕ}
    (hk : k < s.forked) (hl : l < s.forked) (hkl : k ≠ l) (hrunk : (s.child k).pc.running = true)
    (hrunl : (s.child l).pc.running = true) : (s.child k).idx ≠ (s.child l).idx := by
  have hr := roster_reach (fun _ _ he => he.1) h
  have hp : InPlace s := by
    have := h.invariant (I := fun s => Roster s ∧ InPlace s)
      (fun s hi => ⟨roster_init hi, fun k hk => by
        obtain ⟨-, -, -, -, -, -, -, -, -, -, -, hforked, -⟩ := hi
        omega⟩)
      fun s e s' hi hok hs => ⟨roster_step hi.1 hok.1 hs, inPlace_step hi.2 hi.1 hok.1 hok.2 hs⟩
    exact this.2
  rw [hp k hk hrunk, hp l hl hrunl]
  exact fun e => hkl (hr.slot_inj (unreaped_of_running hk hrunk) (unreaped_of_running hl hrunl) e)

/-- The last of three children leaves, and a fourth one joins. -/
theorem idx_exclusive_four :
    let s := (play (fun s e => Legal s e ∧ MovesNoRunning s e) step start
      (joinEvents 7 8 9 (some 100) ++ joinEvents 7 9 10 (some 101) ++ joinEvents 7 10 11 (some 102) ++
        [.childDies 2] ++ sigchldEvents ++ [.waitpid (some 2), .waitpid none, .parentStep true,
        .parentStep true] ++ joinEvents 7 10 11 (some 103))).get (by decide)
    (s.child 1).idx ≠ (s.child 3).idx :=
  idx_exclusive (reach_of_play init_start (Option.some_get _).symm) (by decide) (by decide) (by decide)
    (by decide) (by decide)

/-- The first of three children leaves: the third keeps its number, and the fourth is
given the same. -/
theorem idx_shared : ¬ ∀ (s : Server) (k l : ℕ), Reach Init Legal step s → k < s.forked → l < s.forked →
    k ≠ l → (s.child k).pc.running = true → (s.child l).pc.running = true →
      (s.child k).idx ≠ (s.child l).idx := by
  intro h
  refine h ((play Legal step start
    (joinEvents 7 8 9 (some 100) ++ joinEvents 7 9 10 (some 101) ++ joinEvents 7 10 11 (some 102) ++
      [.childDies 0] ++ sigchldEvents ++ [.waitpid (some 0), .waitpid none, .parentStep true,
      .parentStep true] ++ joinEvents 7 8 11 (some 103))).get (by decide)) 2 3
    (reach_of_play init_start (Option.some_get _).symm) (by decide) (by decide) (by decide) (by decide)
    (by decide) (by decide)

end LinuxServer.ShmChat
