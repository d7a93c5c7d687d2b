import LinuxServer.PollChat

/-!
# The tables of the chat server

What its functions do to `fds`, `users` and `user_count`, and what every step keeps:
the entries in use are the open connections, each once.
-/

namespace LinuxServer.PollChat

/-! ## Flags -/

theorem has_or (a b f : Flags) : has (a ||| b) f = (has a f || has b f) := by
  have : (a ||| b) &&& f = 0 ↔ a &&& f = 0 ∧ b &&& f = 0 := by
    rw [BitVec.and_or_distrib_right]
    exact BitVec.or_eq_zero_iff
  simp only [has, ne_eq, this]
  by_cases h1 : a &&& f = 0 <;> by_cases h2 : b &&& f = 0 <;> simp [h1, h2]

theorem has_of_and {a b f : Flags} (h : has (a &&& b) f = true) : has b f = true := by
  simp only [has, decide_eq_true_eq] at h ⊢
  intro hb
  rw [BitVec.and_assoc, hb] at h
  simp at h

/-- `poll` reports nothing but errors unasked. -/
theorem has_reported {r f : Flags} {p : PollFd} (h : has (r &&& Server.reportable p) f = true)
    (hf : has (pollerr ||| pollhup ||| pollnval) f = false) : has p.events f = true := by
  have := has_of_and h
  simp only [Server.reportable, has_or, Bool.or_eq_true, Bool.or_eq_false_iff] at this hf
  simpa [hf] using this

/-! ## The branches -/

variable {s s' : Server} {i j : ℤ}

theorem branch_accept (h : s.branch i = .accept) : (s.fds i).fd = s.sockfd := by
  unfold Server.branch at h
  grind

theorem branch_departure (h : s.branch i = .departure) : has (s.fds i).revents pollrdhup = true := by
  unfold Server.branch at h
  grind

theorem branch_read (h : s.branch i = .read) : (s.fds i).fd ≠ s.sockfd := by
  unfold Server.branch at h
  grind

theorem branch_write (h : s.branch i = .write) : has (s.fds i).revents pollout = true := by
  unfold Server.branch at h
  grind

/-- What a step can be. -/
theorem step_cases {e : Event} (h : step s e = some s') :
    (∃ revents, e = .poll revents ∧ s.phase = .poll ∧ s' = s.poll revents) ∨
      (∃ accepted received i, e = .examine accepted received ∧ s.phase = .scan i ∧
        ¬ i < s.userCount + 1 ∧ s' = { s with phase := .poll }) ∨
      ∃ accepted received i, e = .examine accepted received ∧ s.phase = .scan i ∧
        i < s.userCount + 1 ∧ s.examine accepted received i = some s' := by
  cases e with
  | poll revents =>
    cases hp : s.phase with
    | poll => exact .inl ⟨revents, rfl, rfl, by simpa [step, hp] using h.symm⟩
    | scan i => simp [step, hp] at h
  | examine accepted received =>
    cases hp : s.phase with
    | poll => simp [step, hp] at h
    | scan i =>
      by_cases hi : i < s.userCount + 1
      · exact .inr (.inr ⟨accepted, received, i, rfl, rfl, hi, by simpa [step, hp, hi] using h⟩)
      · exact .inr (.inl ⟨accepted, received, i, rfl, rfl, hi, by simpa [step, hp, hi] using h.symm⟩)

/-! ## The loop that notifies the others -/

/-- The entry `k` is one of the `n` from `j` on that are not that of `connfd`. -/
def Notifies (s : Server) (connfd : ℤ) (n : ℕ) (j k : ℤ) : Prop :=
  j ≤ k ∧ k < j + n ∧ (s.fds k).fd ≠ connfd

/-- What the loop over `n` entries from `j` on changes. -/
structure Notified (s s' : Server) (connfd : ℤ) (n : ℕ) (j : ℤ) : Prop where
  frame : s' = { s with fds := s'.fds, users := s'.users }
  fd : ∀ k, (s'.fds k).fd = (s.fds k).fd
  revents : ∀ k, (s'.fds k).revents = (s.fds k).revents
  events : ∀ k, Notifies s connfd n j k → (s'.fds k).events = (s.fds k).events ||| ~~~pollin ||| pollout
  events_other : ∀ k, ¬ Notifies s connfd n j k → (s'.fds k).events = (s.fds k).events
  buf : ∀ x, (s'.users x).buf = (s.users x).buf
  writeBuf : ∀ k, Notifies s connfd n j k → (s'.users (s.fds k).fd).writeBuf = some connfd
  writeBuf_other : ∀ x, (∀ k, Notifies s connfd n j k → (s.fds k).fd ≠ x) →
    (s'.users x).writeBuf = (s.users x).writeBuf

theorem notify_spec (s : Server) (connfd j : ℤ) : Notified s (s.notify connfd j) connfd 1 j := by
  have hone : ∀ k, Notifies s connfd 1 j k ↔ k = j ∧ (s.fds j).fd ≠ connfd := by
    intro k
    constructor
    · rintro ⟨h1, h2, h3⟩
      obtain rfl : k = j := by omega
      exact ⟨rfl, h3⟩
    · rintro ⟨rfl, h⟩
      exact ⟨by omega, by omega, h⟩
  by_cases hfd : (s.fds j).fd = connfd
  · have hs : s.notify connfd j = s := if_pos hfd
    have hno : ∀ k, ¬ Notifies s connfd 1 j k := fun k h => ((hone k).mp h).2 hfd
    rw [hs]
    exact ⟨rfl, fun _ => rfl, fun _ => rfl, fun k h => absurd h (hno k), fun _ _ => rfl, fun _ => rfl,
      fun k h => absurd h (hno k), fun _ _ => rfl⟩
  · have hs : s.notify connfd j = { s with
        fds := Function.update s.fds j
          { s.fds j with events := (s.fds j).events ||| ~~~pollin ||| pollout }
        users := Function.update s.users (s.fds j).fd
          { s.users (s.fds j).fd with writeBuf := some connfd } } := if_neg hfd
    rw [hs]
    refine ⟨rfl, fun k => ?_, fun k => ?_, fun k h => ?_, fun k h => ?_, fun x => ?_, fun k h => ?_,
      fun x h => ?_⟩
    · rcases eq_or_ne k j with rfl | hk <;> simp [*]
    · rcases eq_or_ne k j with rfl | hk <;> simp [*]
    · obtain ⟨rfl, -⟩ := (hone k).mp h
      simp
    · have hk : k ≠ j := fun hk => h ((hone k).mpr ⟨hk, hfd⟩)
      simp [hk]
    · rcases eq_or_ne x (s.fds j).fd with rfl | hx <;> simp [*]
    · obtain ⟨rfl, -⟩ := (hone k).mp h
      simp
    · have hx : x ≠ (s.fds j).fd := fun hx => h j ((hone j).mpr ⟨rfl, hfd⟩) hx.symm
      simp [hx]

theorem Notified.trans {s1 s2 : Server} {connfd : ℤ} {n : ℕ} (h : Notified s s1 connfd 1 j)
    (h' : Notified s1 s2 connfd n (j + 1)) : Notified s s2 connfd (n + 1) j := by
  have hleft : ∀ {k}, Notifies s connfd 1 j k → Notifies s connfd (n + 1) j k :=
    fun ⟨h1, h2, h3⟩ => ⟨h1, by push_cast at *; omega, h3⟩
  have hright : ∀ {k}, Notifies s1 connfd n (j + 1) k → Notifies s connfd (n + 1) j k :=
    fun {k} ⟨h1, h2, h3⟩ => ⟨by omega, by push_cast; omega, h.fd k ▸ h3⟩
  have hsplit : ∀ {k}, Notifies s connfd (n + 1) j k →
      Notifies s connfd 1 j k ∧ ¬ Notifies s1 connfd n (j + 1) k ∨
        ¬ Notifies s connfd 1 j k ∧ Notifies s1 connfd n (j + 1) k := by
    rintro k ⟨h1, h2, h3⟩
    rcases eq_or_ne k j with rfl | hk
    · exact .inl ⟨⟨by omega, by omega, h3⟩, fun h => by have := h.1; omega⟩
    · refine .inr ⟨fun h => hk ?_, ⟨by omega, by push_cast at h2; omega, (h.fd k).symm ▸ h3⟩⟩
      have := h.1
      have := h.2.1
      push_cast at this
      omega
  refine ⟨?_, fun k => (h'.fd k).trans (h.fd k), fun k => (h'.revents k).trans (h.revents k), ?_, ?_,
    fun x => (h'.buf x).trans (h.buf x), ?_, ?_⟩
  · rw [h'.frame, h.frame]
  · intro k hk
    rcases hsplit hk with ⟨h1, h2⟩ | ⟨h1, h2⟩
    · rw [h'.events_other k h2, h.events k h1]
    · rw [h'.events k h2, h.events_other k h1]
  · intro k hk
    rw [h'.events_other k fun h => hk (hright h), h.events_other k fun h => hk (hleft h)]
  · intro k hk
    rcases hsplit hk with ⟨h1, h2⟩ | ⟨h1, h2⟩
    · -- a later entry with the same descriptor gets the same pointer
      by_cases hx : ∀ l, Notifies s1 connfd n (j + 1) l → (s1.fds l).fd ≠ (s.fds k).fd
      · rw [h'.writeBuf_other _ hx, h.writeBuf k h1]
      · push Not at hx
        obtain ⟨l, hl, hlk⟩ := hx
        rw [← hlk]
        exact h'.writeBuf l hl
    · have := h'.writeBuf k h2
      rwa [h.fd k] at this
  · intro x hx
    rw [h'.writeBuf_other x fun k hk => h.fd k ▸ hx k (hright hk),
      h.writeBuf_other x fun k hk => hx k (hleft hk)]

theorem notifyLoop_spec (connfd : ℤ) (n : ℕ) (j : ℤ) (s : Server) :
    Notified s (Server.notifyLoop connfd n j s) connfd n j := by
  induction n generalizing j s with
  | zero =>
    have hno : ∀ k, ¬ Notifies s connfd 0 j k := fun k ⟨h1, h2, _⟩ => by push_cast at h2; omega
    exact ⟨rfl, fun _ => rfl, fun _ => rfl, fun k h => absurd h (hno k), fun _ _ => rfl, fun _ => rfl,
      fun k h => absurd h (hno k), fun _ _ => rfl⟩
  | succ n ih => exact (notify_spec s connfd j).trans (ih (j + 1) (s.notify connfd j))

/-! ## The roster -/

/-- The entries in use. -/
def InUse (s : Server) (j : ℤ) : Prop := 1 ≤ j ∧ j ≤ s.userCount

/-- The listening socket comes first, then the open connections, each once. -/
structure Roster (s : Server) : Prop where
  count : 0 ≤ s.userCount
  limit : s.userCount ≤ userLimit
  listenFd : (s.fds 0).fd = s.sockfd
  listenEvents : (s.fds 0).events = pollin ||| pollerr
  registered : ∀ f, has (pollerr ||| pollhup ||| pollnval) f = false →
    ∀ j, 0 ≤ j → j ≤ s.userCount → has (s.fds j).revents f = true → has (s.fds j).events f = true
  client : ∀ j, InUse s j → (s.fds j).fd ≠ s.sockfd
  conn_lt : ∀ j, InUse s j → s.conn (s.fds j).fd < s.joined
  conn_inj : ∀ j k, InUse s j → InUse s k → s.conn (s.fds j).fd = s.conn (s.fds k).fd → j = k

theorem Roster.fd_inj (h : Roster s) {k : ℤ} (hj : InUse s j) (hk : InUse s k)
    (hfd : (s.fds j).fd = (s.fds k).fd) : j = k :=
  h.conn_inj j k hj hk (by rw [hfd])

theorem mem_entries {p : PollFd} : p ∈ s.entries ↔ ∃ j, InUse s j ∧ s.fds j = p := by
  simp only [Server.entries, List.mem_map, List.mem_range]
  constructor
  · rintro ⟨k, hk, rfl⟩
    exact ⟨k + 1, ⟨by omega, by omega⟩, rfl⟩
  · rintro ⟨j, ⟨h1, h2⟩, rfl⟩
    exact ⟨(j - 1).toNat, by omega, by rw [show ((j - 1).toNat : ℤ) + 1 = j by omega]⟩

/-- The branches that close, read or write a client are those of an entry in use. -/
theorem Roster.inUse (h : Roster s) (hi0 : 0 ≤ i) (hi : i < s.userCount + 1)
    (hb : s.branch i = .departure ∨ s.branch i = .read ∨ s.branch i = .write) : InUse s i := by
  refine ⟨?_, by omega⟩
  by_contra hlt
  -- the listening socket is not polled for these
  obtain rfl : i = 0 := by omega
  rcases hb with hb | hb | hb
  · have := h.registered pollrdhup (by decide) 0 (by omega) h.count (branch_departure hb)
    rw [h.listenEvents] at this
    exact absurd this (by decide)
  · exact branch_read hb h.listenFd
  · have := h.registered pollout (by decide) 0 (by omega) h.count (branch_write hb)
    rw [h.listenEvents] at this
    exact absurd this (by decide)

/-- New flags, of which those reported are still registered. -/
theorem Roster.flags (h : Roster s)
    (hsame : (s'.sockfd, s'.userCount, s'.conn, s'.joined) = (s.sockfd, s.userCount, s.conn, s.joined))
    (hfd : ∀ j, (s'.fds j).fd = (s.fds j).fd) (hlisten : (s'.fds 0).events = (s.fds 0).events)
    (hreg : ∀ f, has (pollerr ||| pollhup ||| pollnval) f = false → ∀ j, 0 ≤ j → j ≤ s.userCount →
      has (s'.fds j).revents f = true → has (s'.fds j).events f = true) : Roster s' := by
  simp only [Prod.mk.injEq] at hsame
  obtain ⟨hsock, hcount, hconn, hjoined⟩ := hsame
  have huse : ∀ j, InUse s' j → InUse s j := fun j hj => ⟨hj.1, hcount ▸ hj.2⟩
  refine ⟨hcount ▸ h.count, hcount ▸ h.limit, ?_, hlisten.trans h.listenEvents, ?_, ?_, ?_, ?_⟩
  · rw [hfd, hsock]
    exact h.listenFd
  · rw [hcount]
    exact hreg
  · intro j hj
    rw [hfd, hsock]
    exact h.client j (huse j hj)
  · intro j hj
    rw [hfd, hconn, hjoined]
    exact h.conn_lt j (huse j hj)
  · intro j k hj hk hc
    rw [hfd, hfd, hconn] at hc
    exact h.conn_inj j k (huse j hj) (huse k hk) hc

/-- The fields that say who is connected. -/
def Server.registry (s : Server) : ℤ × (ℤ → PollFd) × ℤ × (ℤ → ℕ) × ℕ :=
  (s.sockfd, s.fds, s.userCount, s.conn, s.joined)

theorem Roster.congr (h : Roster s) (hreg : s'.registry = s.registry) : Roster s' := by
  simp only [Server.registry, Prod.mk.injEq] at hreg
  obtain ⟨h1, h2, h3, h4, h5⟩ := hreg
  refine h.flags (by rw [h1, h3, h4, h5]) (fun _ => by rw [h2]) (by rw [h2]) ?_
  rw [h2]
  exact h.registered

theorem Roster.poll (h : Roster s) (revents : ℤ → Flags) : Roster (s.poll revents) := by
  have hfds : ∀ j, ((s.poll revents).fds j).fd = (s.fds j).fd := by
    intro j
    simp only [Server.poll]
    split <;> rfl
  have hevents : ∀ j, ((s.poll revents).fds j).events = (s.fds j).events := by
    intro j
    simp only [Server.poll]
    split <;> rfl
  refine h.flags rfl hfds (hevents 0) fun f hf j h0 hj hr => ?_
  have hj' : 0 ≤ j ∧ j ≤ s.userCount := ⟨h0, hj⟩
  rw [hevents]
  simp only [Server.poll, if_pos hj'] at hr
  exact has_reported hr hf

theorem Roster.join (h : Roster s) {connfd : ℤ} (hlimit : s.userCount < userLimit)
    (hsock : connfd ≠ s.sockfd) (hfresh : ∀ p ∈ s.entries, p.fd ≠ connfd) : Roster (s.join connfd) := by
  have hnew : (s.join connfd).fds (s.userCount + 1) = ⟨connfd, pollin ||| pollrdhup ||| pollerr, 0⟩ := by
    simp [Server.join]
  have hold : ∀ j, j ≠ s.userCount + 1 → (s.join connfd).fds j = s.fds j := by
    intro j hj
    simp [Server.join, hj]
  have hconn : ∀ j, InUse s j → (s.join connfd).conn (s.fds j).fd = s.conn (s.fds j).fd := by
    intro j hj
    have := hfresh _ (mem_entries.mpr ⟨j, hj, rfl⟩)
    simp [Server.join, this]
  have hself : (s.join connfd).conn connfd = s.joined := by simp [Server.join]
  have hcases : ∀ j, InUse (s.join connfd) j →
      j = s.userCount + 1 ∨ j ≠ s.userCount + 1 ∧ InUse s j := by
    rintro j ⟨h1, h2⟩
    simp only [Server.join] at h2
    rcases eq_or_ne j (s.userCount + 1) with hj | hj
    · exact .inl hj
    · exact .inr ⟨hj, h1, by omega⟩
  have h0 : (0 : ℤ) ≠ s.userCount + 1 := by have := h.count; omega
  refine ⟨?_, ?_, ?_, ?_, ?_, ?_, ?_, ?_⟩
  · have := h.count
    simp only [Server.join]
    omega
  · simp only [Server.join]
    omega
  · rw [hold 0 h0]
    exact h.listenFd
  · rw [hold 0 h0]
    exact h.listenEvents
  · intro f hf j hj0 hj hr
    rcases eq_or_ne j (s.userCount + 1) with rfl | hne
    · rw [hnew] at hr
      simp [has] at hr
    · rw [hold j hne] at hr ⊢
      simp only [Server.join] at hj
      exact h.registered f hf j hj0 (by omega) hr
  · intro j hj
    rcases hcases j hj with rfl | ⟨hne, hj⟩
    · rw [hnew]
      exact hsock
    · rw [hold j hne]
      exact h.client j hj
  · intro j hj
    show _ < s.joined + 1
    rcases hcases j hj with rfl | ⟨hne, hj⟩
    · rw [hnew, hself]
      omega
    · rw [hold j hne, hconn j hj]
      have := h.conn_lt j hj
      omega
  · -- the number of the new connection is above all others
    intro j k hj hk hc
    rcases hcases j hj with rfl | ⟨hne, hj⟩ <;> rcases hcases k hk with rfl | ⟨hne', hk⟩
    · rfl
    · rw [hnew, hself, hold k hne', hconn k hk] at hc
      have := h.conn_lt k hk
      omega
    · rw [hnew, hself, hold j hne, hconn j hj] at hc
      have := h.conn_lt j hj
      omega
    · rw [hold j hne, hconn j hj, hold k hne', hconn k hk] at hc
      exact h.conn_inj j k hj hk hc

/-- Where an entry was before the entry `i` was taken out. -/
def source (s : Server) (i j : ℤ) : ℤ := if j = i then s.userCount else j

theorem depart_fds (i j : ℤ) : (s.depart i).fds j = s.fds (source s i j) := by
  simp only [Server.depart, source, Function.update_apply]
  split <;> rfl

theorem source_inUse (hi : InUse s i) (hj : InUse (s.depart i) j) :
    InUse s (source s i j) ∧ source s i j ≠ i := by
  obtain ⟨h1, h2⟩ := hj
  obtain ⟨h3, h4⟩ := hi
  simp only [Server.depart] at h2
  simp only [source, InUse]
  split <;> omega

theorem source_inj {k : ℤ} (hj : InUse (s.depart i) j) (hk : InUse (s.depart i) k)
    (h : source s i j = source s i k) : j = k := by
  obtain ⟨-, h1⟩ := hj
  obtain ⟨-, h2⟩ := hk
  simp only [Server.depart] at h1 h2
  simp only [source] at h
  split at h <;> split at h <;> omega

theorem Roster.depart (h : Roster s) (hi : InUse s i) : Roster (s.depart i) := by
  have h0 : source s i 0 = 0 := by
    have := hi.1
    simp only [source]
    split <;> omega
  refine ⟨?_, ?_, ?_, ?_, ?_, ?_, ?_, ?_⟩
  · obtain ⟨h1, h2⟩ := hi
    simp only [Server.depart]
    omega
  · have := h.limit
    simp only [Server.depart]
    omega
  · rw [depart_fds, h0]
    exact h.listenFd
  · rw [depart_fds, h0]
    exact h.listenEvents
  · intro f hf j hj0 hj hr
    rw [depart_fds] at hr ⊢
    have hle : 0 ≤ source s i j ∧ source s i j ≤ s.userCount := by
      obtain ⟨h1, h2⟩ := hi
      simp only [Server.depart] at hj
      simp only [source]
      split <;> omega
    exact h.registered f hf _ hle.1 hle.2 hr
  · intro j hj
    rw [depart_fds]
    exact h.client _ (source_inUse hi hj).1
  · intro j hj
    rw [depart_fds]
    exact h.conn_lt _ (source_inUse hi hj).1
  · intro j k hj hk hc
    rw [depart_fds, depart_fds] at hc
    exact source_inj hj hk (h.conn_inj _ _ (source_inUse hi hj).1 (source_inUse hi hk).1 hc)

theorem has_mono {a b f : Flags} (h : has a f = true) : has (a ||| b) f = true := by
  rw [has_or, h, Bool.true_or]

theorem Notified.has_events {connfd : ℤ} {n : ℕ} (hn : Notified s s' connfd n j) {f : Flags} (k : ℤ)
    (h : has (s.fds k).events f = true) : has (s'.fds k).events f = true := by
  by_cases hk : Notifies s connfd n j k
  · rw [hn.events k hk]
    exact has_mono (has_mono h)
  · rwa [hn.events_other k hk]

theorem Notified.inUse {connfd : ℤ} {n : ℕ} (hn : Notified s s' connfd n i) :
    InUse s' j ↔ InUse s j := by
  rw [InUse, InUse, hn.frame]

theorem Roster.notified (h : Roster s) {connfd : ℤ} {n : ℕ} (hn : Notified s s' connfd n 1) : Roster s' := by
  have h0 : ¬ Notifies s connfd n 1 0 := fun ⟨h, _, _⟩ => by omega
  refine h.flags (by rw [hn.frame]) hn.fd (hn.events_other 0 h0) fun f hf k hk0 hk hr => ?_
  rw [hn.revents] at hr
  exact hn.has_events k (h.registered f hf k hk0 hk hr)

theorem Roster.accept (h : Roster s) {accepted : Option ℤ}
    (hfresh : ∀ fd, accepted = some fd → fd ≠ s.sockfd ∧ ∀ p ∈ s.entries, p.fd ≠ fd) :
    Roster (s.accept accepted) := by
  cases accepted with
  | none => exact h
  | some fd =>
    simp only [Server.accept]
    split
    · exact h
    next hlt =>
      obtain ⟨h1, h2⟩ := hfresh fd rfl
      exact h.join (by omega) h1 h2

/-- `read` is a store into the buffer, and then a departure, a broadcast, or nothing. -/
theorem read_cases (received : RecvResult) (i : ℤ) (s : Server) :
    let connfd := (s.fds i).fd
    let s0 := s.setBuf connfd (List.replicate bufferSize 0)
    (received = .error ∧ s.read received i = { s0.depart i with phase := .scan i }) ∨
      ((received = .again ∨ received = .eof) ∧ s.read received i = { s0 with phase := .scan (i + 1) }) ∨
      ∃ msg s1, received = .data msg ∧ s.read received i = { s1 with phase := .scan (i + 1) } ∧
        Notified (s.receive connfd msg) s1 connfd s.userCount.toNat 1 := by
  intro connfd s0
  -- the buffer is cleared before every `recv`, also before one that returns nothing
  cases received with
  | error => exact .inl ⟨rfl, rfl⟩
  | again => exact .inr (.inl ⟨.inl rfl, rfl⟩)
  | eof => exact .inr (.inl ⟨.inr rfl, rfl⟩)
  | data msg =>
    refine .inr (.inr ⟨msg, _, rfl, rfl, ?_⟩)
    have hbuf : s0.receive connfd msg = s.receive connfd msg := by
      simp [s0, Server.receive, Server.setBuf]
    rw [hbuf]
    exact notifyLoop_spec connfd _ 1 _

/-- `write` finds nothing to send, or sends the string it has a pointer to. -/
theorem write_cases (h : s.write i = some s') :
    let connfd := (s.fds i).fd
    let log := s.log ++ [Record.writable (s.conn connfd)]
    ((s.users connfd).writeBuf = none ∧ s' = { s with log := log, phase := .scan (i + 1) }) ∨
      ∃ x msg, (s.users connfd).writeBuf = some x ∧ CString.str (s.users x).buf 0 = some msg ∧
        s' = { s with
          log := log ++ [.sent (s.conn connfd) msg]
          users := Function.update s.users connfd { s.users connfd with writeBuf := none }
          fds := Function.update s.fds i
            { s.fds i with events := (s.fds i).events ||| ~~~pollout ||| pollin }
          phase := .scan (i + 1) } := by
  intro connfd log
  unfold Server.write at h
  cases hw : (s.users connfd).writeBuf with
  | none =>
    refine .inl ⟨rfl, ?_⟩
    simpa [hw, connfd, log] using h.symm
  | some x =>
    cases hm : CString.str (s.users x).buf 0 with
    | none => simp [hw, hm, connfd] at h
    | some msg =>
      refine .inr ⟨x, msg, rfl, hm, ?_⟩
      simpa [hw, hm, connfd, log] using h.symm

theorem Roster.read (h : Roster s) (received : RecvResult) (hi : InUse s i) : Roster (s.read received i) := by
  rcases read_cases received i s with ⟨-, h1⟩ | ⟨-, h1⟩ | ⟨msg, s1, -, h1, hn⟩ <;> rw [h1]
  · have h0 : Roster (s.setBuf (s.fds i).fd (List.replicate bufferSize 0)) := h.congr rfl
    exact (h0.depart hi).congr rfl
  · exact h.congr rfl
  · have h0 : Roster (s.receive (s.fds i).fd msg) := h.congr rfl
    exact (h0.notified hn).congr rfl

theorem Roster.write (h : Roster s) (hi : InUse s i) (hs : s.write i = some s') : Roster s' := by
  rcases write_cases hs with ⟨-, rfl⟩ | ⟨x, msg, -, -, rfl⟩
  · exact h.congr rfl
  · have h0 : (0 : ℤ) ≠ i := by have := hi.1; omega
    refine h.flags rfl (fun k => ?_) (by simp [Function.update_of_ne h0]) fun f hf k hk0 hk hr => ?_
    · rcases eq_or_ne k i with rfl | hk <;> simp [*]
    · rcases eq_or_ne k i with rfl | hne
      · simp only [Function.update_self] at hr ⊢
        exact has_mono (has_mono (h.registered f hf k hk0 hk hr))
      · simp only [Function.update_of_ne hne] at hr ⊢
        exact h.registered f hf k hk0 hk hr

/-- The roster, and an index of the scan that is one. -/
structure Tables (s : Server) : Prop extends Roster s where
  scanning : ∀ i, s.phase = .scan i → 0 ≤ i

theorem tables_step {e : Event} (h : Tables s) (hok : Legal s e) (hstep : step s e = some s') :
    Tables s' := by
  rcases step_cases hstep with
    ⟨r, rfl, -, rfl⟩ | ⟨a, r, i, rfl, -, -, rfl⟩ | ⟨a, r, i, rfl, hp, hi, hex⟩
  · refine ⟨h.toRoster.poll r, fun i hi => ?_⟩
    obtain rfl : 0 = i := by simpa [Server.poll] using hi
    omega
  · exact ⟨h.toRoster.congr rfl, fun i hi => by simp at hi⟩
  · have h0 := h.scanning i hp
    have hscan : ∀ k, Phase.scan (i + 1) = .scan k → 0 ≤ k := by
      intro k hk
      obtain rfl : i + 1 = k := by simpa using hk
      omega
    have hstay : ∀ k, Phase.scan i = .scan k → 0 ≤ k := by
      intro k hk
      obtain rfl : i = k := by simpa using hk
      exact h0
    unfold Server.examine at hex
    cases hb : s.branch i with
    | accept =>
      obtain rfl : { s.accept a with phase := .scan (i + 1) } = s' := by simpa [hb] using hex
      refine ⟨(h.toRoster.accept ?_).congr rfl, hscan⟩
      rintro fd rfl
      exact (hok.1 fd rfl).2.2
    | error | idle =>
      obtain rfl : { s with phase := .scan (i + 1) } = s' := by simpa [hb] using hex
      exact ⟨h.toRoster.congr rfl, hscan⟩
    | departure =>
      have hin := h.toRoster.inUse h0 hi (.inl hb)
      obtain rfl : { s.depart i with phase := .scan i } = s' := by simpa [hb] using hex
      exact ⟨(h.toRoster.depart hin).congr rfl, hstay⟩
    | read =>
      have hin := h.toRoster.inUse h0 hi (.inr (.inl hb))
      obtain rfl : s.read r i = s' := by simpa [hb] using hex
      refine ⟨h.toRoster.read r hin, ?_⟩
      rcases read_cases r i s with ⟨-, h1⟩ | ⟨-, h1⟩ | ⟨msg, s1, -, h1, hn⟩ <;> rw [h1]
      · exact hstay
      · exact hscan
      · exact hscan
    | write =>
      have hin := h.toRoster.inUse h0 hi (.inr (.inr hb))
      have hw : s.write i = some s' := by simpa [hb] using hex
      refine ⟨h.toRoster.write hin hw, ?_⟩
      rcases write_cases hw with ⟨-, rfl⟩ | ⟨x, msg, -, -, rfl⟩
      · exact hscan
      · exact hscan

/-- The connections in use after a step were in use before, or are new. -/
structure Connected (s s' : Server) : Prop where
  joined : s.joined ≤ s'.joined
  conn : ∀ j, InUse s' j →
    s'.conn (s'.fds j).fd = s.joined ∨ ∃ k, InUse s k ∧ s'.conn (s'.fds j).fd = s.conn (s.fds k).fd

/-- Nobody comes or goes. -/
theorem connected_same (h : (s'.userCount, s'.conn, s'.joined) = (s.userCount, s.conn, s.joined))
    (hfd : ∀ j, (s'.fds j).fd = (s.fds j).fd) : Connected s s' := by
  simp only [Prod.mk.injEq] at h
  obtain ⟨hcount, hconn, hjoined⟩ := h
  refine ⟨hjoined.ge, fun j hj => .inr ⟨j, ⟨hj.1, hcount ▸ hj.2⟩, ?_⟩⟩
  rw [hfd, hconn]

theorem Connected.congr {s0 t : Server} (h : Connected s0 t) (hs : s0.registry = s.registry)
    (ht : s'.registry = t.registry) : Connected s s' := by
  simp only [Server.registry, Prod.mk.injEq] at hs ht
  obtain ⟨-, hfds, hcount, hconn, hjoined⟩ := hs
  obtain ⟨-, hfds', hcount', hconn', hjoined'⟩ := ht
  refine ⟨?_, fun j hj => ?_⟩
  · rw [← hjoined, hjoined']
    exact h.joined
  · rw [InUse, hcount'] at hj
    rw [hfds', hconn', ← hjoined]
    refine (h.conn j hj).imp_right fun ⟨k, hk, hold⟩ => ⟨k, ?_, ?_⟩
    · rwa [InUse, ← hcount]
    · rwa [← hfds, ← hconn]

theorem connected_accept {accepted : Option ℤ}
    (hfresh : ∀ fd, accepted = some fd → ∀ p ∈ s.entries, p.fd ≠ fd) : Connected s (s.accept accepted) := by
  cases accepted with
  | none => exact connected_same rfl fun _ => rfl
  | some fd =>
    simp only [Server.accept]
    split
    · exact connected_same rfl fun _ => rfl
    · refine ⟨Nat.le_succ _, fun j ⟨h1, h2⟩ => ?_⟩
      rcases eq_or_ne j (s.userCount + 1) with rfl | hj
      · exact .inl (by simp [Server.join])
      · have hin : InUse s j := ⟨h1, by simp only [Server.join] at h2; omega⟩
        have hne := hfresh fd rfl _ (mem_entries.mpr ⟨j, hin, rfl⟩)
        exact .inr ⟨j, hin, by simp [Server.join, hj, hne]⟩

theorem connected_depart (hi : InUse s i) : Connected s (s.depart i) := by
  refine ⟨le_rfl, fun j hj => .inr ⟨source s i j, (source_inUse hi hj).1, ?_⟩⟩
  rw [depart_fds]
  rfl

theorem connected_step {e : Event} (h : Tables s) (hok : Legal s e) (hstep : step s e = some s') :
    Connected s s' := by
  rcases step_cases hstep with
    ⟨r, rfl, -, rfl⟩ | ⟨a, r, i, rfl, -, -, rfl⟩ | ⟨a, r, i, rfl, hp, hi, hex⟩
  · refine connected_same rfl fun j => ?_
    simp only [Server.poll]
    split <;> rfl
  · exact connected_same rfl fun _ => rfl
  · have hin := h.toRoster.inUse (h.scanning i hp) hi
    unfold Server.examine at hex
    cases hb : s.branch i with
    | accept =>
      obtain rfl : { s.accept a with phase := .scan (i + 1) } = s' := by simpa [hb] using hex
      refine (connected_accept ?_).congr rfl rfl
      rintro fd rfl
      exact (hok.1 fd rfl).2.2.2
    | error | idle =>
      obtain rfl : { s with phase := .scan (i + 1) } = s' := by simpa [hb] using hex
      exact connected_same rfl fun _ => rfl
    | departure =>
      obtain rfl : { s.depart i with phase := .scan i } = s' := by simpa [hb] using hex
      exact (connected_depart (hin (.inl hb))).congr rfl rfl
    | read =>
      have hi := hin (.inr (.inl hb))
      obtain rfl : s.read r i = s' := by simpa [hb] using hex
      rcases read_cases r i s with ⟨-, h1⟩ | ⟨-, h1⟩ | ⟨msg, s1, -, h1, hn⟩ <;> rw [h1]
      · have hclear : InUse (s.setBuf (s.fds i).fd (List.replicate bufferSize 0)) i := hi
        exact (connected_depart hclear).congr rfl rfl
      · exact connected_same rfl fun _ => rfl
      · refine connected_same ?_ hn.fd
        simp only
        rw [hn.frame]
        rfl
    | write =>
      have hw : s.write i = some s' := by simpa [hb] using hex
      rcases write_cases hw with ⟨-, rfl⟩ | ⟨x, msg, -, -, rfl⟩
      · exact connected_same rfl fun _ => rfl
      · refine connected_same rfl fun j => ?_
        rcases eq_or_ne j i with rfl | hj <;> simp [*]

theorem tables_init (h : Init s) : Tables s := by
  obtain ⟨h1, -, h2, h3, -⟩ := h
  have hno : ∀ j, ¬ InUse s j := fun j ⟨h4, h5⟩ => by omega
  refine ⟨⟨?_, ?_, ?_, ?_, ?_, fun j hj => absurd hj (hno j), fun j hj => absurd hj (hno j),
    fun j _ hj => absurd hj (hno j)⟩, ?_⟩
  · omega
  · rw [h2]
    decide
  · rw [h1]
  · rw [h1]
  · intro f _ j h0 hj hr
    obtain rfl : j = 0 := by omega
    rw [h1] at hr
    simp [has] at hr
  · simp [h3]

theorem tables_reach {ok : Server → Event → Prop} (hok : ∀ s e, ok s e → Legal s e)
    (h : Reach Init ok step s) : Tables s :=
  h.invariant (I := Tables) (fun _ => tables_init) fun _ _ _ hi he hs => tables_step hi (hok _ _ he) hs

end LinuxServer.PollChat
