import LinuxServer.PollChatRoster

/-!
# Who wrote what a client is sent

A client is sent what its `write_buf` points to, the buffer of the client that sent
last.  A departure copies the data of the last entry over those of the client that
leaves, and with them its buffer over the one that others may still have to be sent.
-/

namespace LinuxServer.PollChat
open CString

namespace Server

/-- The entry that a step takes out. -/
def leaving (s : Server) (received : RecvResult) : Option ℤ :=
  match s.current with
  | none => none
  | some i =>
    match s.branch i with
    | .departure => some i
    | .read => if received = .error then some i else none
    | _ => none

/-- Another client has to be sent what is in the buffer of `fd`. -/
def Pending (s : Server) (fd : ℤ) : Prop :=
  ∃ p ∈ s.entries, p.fd ≠ fd ∧ has p.events pollout = true ∧ (s.users p.fd).writeBuf = some fd

instance (s : Server) (fd : ℤ) : Decidable (s.Pending fd) := inferInstanceAs (Decidable (∃ p ∈ _, _ ∧ _))

end Server

/-- Data are a string, or begin with a NUL. -/
def RecvResult.IsString : RecvResult → Prop
  | .data msg => 0 ∉ msg ∨ msg.head? = some 0
  | _ => True

instance : (r : RecvResult) → Decidable r.IsString
  | .data _ => inferInstanceAs (Decidable (_ ∨ _))
  | .eof => isTrue trivial
  | .again => isTrue trivial
  | .error => isTrue trivial

/-- A client that leaves has the last entry or nobody has to be sent its message, and
data that there is somebody to send to are a string. -/
def Harmless (s : Server) : Event → Prop
  | .poll _ => True
  | .examine _ received =>
    (∀ i ∈ s.leaving received, i = s.userCount ∨ ¬ s.Pending (s.fds i).fd) ∧
      (1 < s.userCount → received.IsString)

instance (s : Server) : (e : Event) → Decidable (Harmless s e)
  | .poll _ => isTrue trivial
  | .examine _ _ => inferInstanceAs (Decidable (_ ∧ _))

/-- Whatever a connection is sent, another one sent before. -/
def Attributed (log : List Record) : Prop :=
  ∀ (n : ℕ) (c : ℕ) (msg : List UInt8), log[n]? = some (.sent c msg) → msg ≠ [] →
    ∃ k, k ≠ c ∧ Record.received k msg ∈ log.take n

theorem Attributed.append {log : List Record} {r : Record} (h : Attributed log)
    (hr : ∀ c msg, r = .sent c msg → msg ≠ [] → ∃ k, k ≠ c ∧ Record.received k msg ∈ log) :
    Attributed (log ++ [r]) := by
  intro n c msg hn hne
  rcases Nat.lt_or_ge n log.length with hlt | hge
  · rw [List.getElem?_append_left hlt] at hn
    rw [List.take_append_of_le_length (by omega)]
    exact h n c msg hn hne
  · obtain ⟨hlt, -⟩ := List.getElem?_eq_some_iff.mp hn
    obtain rfl : n = log.length := by simp at hlt; omega
    rw [List.take_left]
    exact hr c msg (by simpa using hn) hne

/-! ## What a client is owed -/

variable {s s' : Server} {i : ℤ} {p : PollFd}

/-- `msg` is nothing, or was received from a connection other than `c`. -/
def FromAnother (s : Server) (c : ℕ) (msg : List UInt8) : Prop :=
  msg = [] ∨ ∃ k, k ≠ c ∧ Record.received k msg ∈ s.log

/-- What the client of an entry would be sent is from another one. -/
def Owed (s : Server) (p : PollFd) : Prop :=
  ∀ x, (s.users p.fd).writeBuf = some x → x ≠ p.fd ∧
    ∀ msg, str (s.users x).buf 0 = some msg → FromAnother s (s.conn p.fd) msg

/-- Every client that waits for `POLLOUT` is owed what is from another one. -/
structure Owing (s : Server) : Prop where
  owed : ∀ j, InUse s j → has (s.fds j).events pollout = true → Owed s (s.fds j)
  attributed : Attributed s.log

theorem str_padded (msg : List UInt8) {n : ℕ} (hn : 0 < n) :
    str (msg ++ List.replicate n 0) 0 = some (cstr msg) := by
  obtain ⟨n, rfl⟩ : ∃ k, n = k + 1 := ⟨n - 1, by omega⟩
  obtain ⟨rest, h⟩ := exists_cstr_append msg (List.replicate n 0)
  exact str_spec (by rw [List.drop_zero, List.replicate_succ, h]) (zero_notMem_cstr msg)

theorem str_zeros : str (List.replicate bufferSize 0) 0 = some [] :=
  str_padded [] (n := bufferSize) (by decide)

theorem cstr_of_head? {msg : List UInt8} (h : msg.head? = some 0) : cstr msg = [] := by
  cases msg with
  | nil => rfl
  | cons c msg =>
    obtain rfl : c = 0 := by simpa using h
    simp [cstr]

/-- Storing into a buffer keeps what is owed, if what is stored may be sent to the others. -/
theorem Owed.setBuf (h : Owed s p) {fd : ℤ} {buf : List UInt8}
    (hbuf : p.fd ≠ fd → ∀ msg, str buf 0 = some msg → FromAnother s (s.conn p.fd) msg) :
    Owed (s.setBuf fd buf) p := by
  intro x hx
  have hx' : (s.users p.fd).writeBuf = some x := by
    rcases eq_or_ne p.fd fd with hp | hp
    · simpa [Server.setBuf, hp] using hx
    · simpa [Server.setBuf, hp] using hx
  obtain ⟨hne, hmsg⟩ := h x hx'
  refine ⟨hne, fun msg hm => ?_⟩
  rcases eq_or_ne x fd with rfl | hxfd
  · exact hbuf hne.symm msg (by simpa [Server.setBuf] using hm)
  · exact hmsg msg (by simpa [Server.setBuf, hxfd] using hm)

/-- Only the tables and the log matter, and the log may grow. -/
theorem Owed.congr (h : Owed s p) (h1 : s'.users = s.users) (h2 : s'.conn p.fd = s.conn p.fd)
    (h3 : ∀ r ∈ s.log, r ∈ s'.log) : Owed s' p := by
  intro x hx
  rw [h1] at hx ⊢
  obtain ⟨hne, hmsg⟩ := h x hx
  refine ⟨hne, fun msg hm => ?_⟩
  rw [h2]
  rcases hmsg msg hm with h | ⟨k, hk, hr⟩
  · exact .inl h
  · exact .inr ⟨k, hk, h3 _ hr⟩

/-- The fields that say who is to be sent what. -/
def Server.mail (s : Server) : (ℤ → ClientData) × (ℤ → ℕ) × List Record × (ℤ → PollFd) × ℤ :=
  (s.users, s.conn, s.log, s.fds, s.userCount)

theorem Owing.congr (h : Owing s) (hmail : s'.mail = s.mail) : Owing s' := by
  simp only [Server.mail, Prod.mk.injEq] at hmail
  obtain ⟨h1, h2, h3, h4, h5⟩ := hmail
  refine ⟨fun j hj hp => ?_, h3 ▸ h.attributed⟩
  rw [h4] at hp ⊢
  rw [InUse, h5] at hj
  exact (h.owed j hj hp).congr h1 (by rw [h2]) (by simp [h3])

theorem Owing.join (h : Owing s) {connfd : ℤ} (hfresh : ∀ p ∈ s.entries, p.fd ≠ connfd) :
    Owing (s.join connfd) := by
  refine ⟨fun j ⟨h1, h2⟩ hp => ?_, h.attributed⟩
  rcases eq_or_ne j (s.userCount + 1) with rfl | hj
  · exact absurd hp (by simp [Server.join, has_or]; decide)
  · have hold : (s.join connfd).fds j = s.fds j := by simp [Server.join, hj]
    have hin : InUse s j := ⟨h1, by simp only [Server.join] at h2; omega⟩
    rw [hold] at hp ⊢
    have hne := hfresh _ (mem_entries.mpr ⟨j, hin, rfl⟩)
    exact (h.owed j hin hp).congr rfl (by simp [Server.join, hne]) fun r hr => hr

theorem Owing.accept (h : Owing s) {accepted : Option ℤ}
    (hfresh : ∀ fd, accepted = some fd → ∀ p ∈ s.entries, p.fd ≠ fd) : Owing (s.accept accepted) := by
  cases accepted with
  | none => exact h
  | some fd =>
    simp only [Server.accept]
    split
    · exact h
    · exact h.join (hfresh fd rfl)

/-- A departure that overwrites no message that someone has to be sent. -/
theorem Owing.depart (h : Owing s) (hr : Roster s) (hi : InUse s i)
    (hok : i = s.userCount ∨ ¬ s.Pending (s.fds i).fd) : Owing (s.depart i) := by
  refine ⟨fun j hj hp => ?_, h.attributed⟩
  rw [depart_fds] at hp ⊢
  obtain ⟨hin, hne⟩ := source_inUse hi hj
  have hfd : (s.fds (source s i j)).fd ≠ (s.fds i).fd := fun hfd => hne (hr.fd_inj hin hi hfd)
  have hself : (s.depart i).users (s.fds (source s i j)).fd = s.users (s.fds (source s i j)).fd := by
    simp [Server.depart, hfd]
  have howed := h.owed _ hin hp
  rcases hok with rfl | hpend
  · -- the last entry is copied over itself
    have hsame : (s.depart s.userCount).users = s.users := by simp [Server.depart]
    exact howed.congr hsame rfl fun r hr => hr
  · -- the buffer that is overwritten is not the one this client has a pointer to
    intro x hx
    rw [hself] at hx
    obtain ⟨hxne, hmsg⟩ := howed x hx
    have hxi : x ≠ (s.fds i).fd := by
      rintro rfl
      exact hpend ⟨_, mem_entries.mpr ⟨_, hin, rfl⟩, hfd, hp, hx⟩
    have hx' : (s.depart i).users x = s.users x := by simp [Server.depart, hxi]
    rw [hx']
    exact ⟨hxne, hmsg⟩

theorem Owing.setBuf (h : Owing s) {fd : ℤ} {buf : List UInt8}
    (hbuf : ∀ j, InUse s j → (s.fds j).fd ≠ fd → ∀ msg, str buf 0 = some msg →
      FromAnother s (s.conn (s.fds j).fd) msg) : Owing (s.setBuf fd buf) :=
  ⟨fun j hj hp => (h.owed j hj hp).setBuf (hbuf j hj), h.attributed⟩

theorem Owing.clear (h : Owing s) (fd : ℤ) : Owing (s.setBuf fd (List.replicate bufferSize 0)) := by
  refine h.setBuf fun j _ _ msg hm => .inl ?_
  rw [str_zeros] at hm
  exact (Option.some.inj hm).symm

/-- A recorded receipt is no string sent. -/
theorem Owing.record (h : Owing s) (r : Record) (hr : ∀ c msg, r ≠ .sent c msg) :
    Owing { s with log := s.log ++ [r] } :=
  ⟨fun j hj hp => (h.owed j hj hp).congr rfl rfl fun _ hm => List.mem_append_left _ hm,
    h.attributed.append fun c msg hs => absurd hs (hr c msg)⟩

theorem InUse.one_lt {j : ℤ} (hi : InUse s i) (hj : InUse s j) (hne : (s.fds j).fd ≠ (s.fds i).fd) :
    1 < s.userCount := by
  obtain ⟨hi1, hi2⟩ := hi
  obtain ⟨hj1, hj2⟩ := hj
  have hij : j ≠ i := by
    rintro rfl
    exact hne rfl
  omega

theorem Owing.receive (h : Owing s) (hr : Roster s) (hi : InUse s i) {msg : List UInt8}
    (hlen : msg.length < bufferSize) (hmsg : 1 < s.userCount → 0 ∉ msg ∨ msg.head? = some 0) :
    Owing (s.receive (s.fds i).fd msg) ∧
      ∀ j, InUse s j → (s.fds j).fd ≠ (s.fds i).fd → ∀ m,
        str ((s.receive (s.fds i).fd msg).users (s.fds i).fd).buf 0 = some m →
          FromAnother (s.receive (s.fds i).fd msg) (s.conn (s.fds j).fd) m := by
  have hstr : str (msg ++ List.replicate (bufferSize - msg.length) 0) 0 = some (cstr msg) :=
    str_padded _ (by omega)
  have hfrom : ∀ j, InUse s j → (s.fds j).fd ≠ (s.fds i).fd → ∀ m,
      str (msg ++ List.replicate (bufferSize - msg.length) 0) 0 = some m →
        FromAnother { s with log := s.log ++ [.received (s.conn (s.fds i).fd) msg] }
          (s.conn (s.fds j).fd) m := by
    intro j hj hne m hm
    obtain rfl : cstr msg = m := by simpa [hstr] using hm
    -- a message without a NUL is sent whole, one that begins with a NUL not at all
    rcases hmsg (hi.one_lt hj hne) with h0 | h0
    · refine .inr ⟨s.conn (s.fds i).fd, fun hc => hne ?_, ?_⟩
      · rw [hr.conn_inj i j hi hj hc]
      · simp [cstr_of_notMem h0]
    · exact .inl (cstr_of_head? h0)
  refine ⟨(h.record _ (by simp)).setBuf hfrom, fun j hj hne m hm => hfrom j hj hne m ?_⟩
  simpa [Server.receive, Server.setBuf] using hm

theorem Owing.notified (h : Owing s)
    (hn : Notified s s' (s.fds i).fd s.userCount.toNat 1)
    (hfrom : ∀ j, InUse s j → (s.fds j).fd ≠ (s.fds i).fd → ∀ m,
      str (s.users (s.fds i).fd).buf 0 = some m → FromAnother s (s.conn (s.fds j).fd) m) : Owing s' := by
  have hlog : s'.log = s.log := by rw [hn.frame]
  have hconn : s'.conn = s.conn := by rw [hn.frame]
  have hanother : ∀ {c m}, FromAnother s c m → FromAnother s' c m := by
    intro c m hm
    rwa [FromAnother, hlog]
  refine ⟨fun j hj hp => ?_, hlog ▸ h.attributed⟩
  have hin := hn.inUse.mp hj
  intro x hx
  rw [hn.fd, hconn, hn.buf]
  rw [hn.fd] at hx
  by_cases hk : Notifies s (s.fds i).fd s.userCount.toNat 1 j
  · -- what was owed before is replaced by the new message
    obtain rfl : (s.fds i).fd = x := by simpa [hn.writeBuf j hk] using hx
    exact ⟨hk.2.2.symm, fun m hm => hanother (hfrom j hin hk.2.2 m hm)⟩
  · -- the loop passes over its sender only
    rw [hn.events_other j hk] at hp
    have hfd : (s.fds j).fd = (s.fds i).fd := by
      by_contra hne
      exact hk ⟨hin.1, by have := hin.2; omega, hne⟩
    rw [hn.writeBuf_other _ fun k hk' => hfd ▸ hk'.2.2] at hx
    obtain ⟨h1, h2⟩ := h.owed j hin hp x hx
    exact ⟨h1, fun m hm => hanother (h2 m hm)⟩

theorem Owing.read (h : Owing s) (hr : Roster s) (hi : InUse s i) {received : RecvResult}
    (hlen : ∀ msg, received = .data msg → msg.length < bufferSize)
    (hmsg : ∀ msg, received = .data msg → 1 < s.userCount → 0 ∉ msg ∨ msg.head? = some 0)
    (hok : received = .error → i = s.userCount ∨ ¬ s.Pending (s.fds i).fd) : Owing (s.read received i) := by
  rcases read_cases received i s with ⟨he, h1⟩ | ⟨-, h1⟩ | ⟨msg, s1, he, h1, hn⟩ <;> rw [h1]
  · have hr0 : Roster (s.setBuf (s.fds i).fd (List.replicate bufferSize 0)) := hr.congr rfl
    refine ((h.clear (s.fds i).fd).depart hr0 hi ?_).congr rfl
    -- clearing the buffer of the leaver changes no pointer
    refine (hok he).imp_right fun hpend hpend' => hpend ?_
    obtain ⟨p, hp, hne, hev, hw⟩ := hpend'
    refine ⟨p, hp, hne, hev, ?_⟩
    have hne' : p.fd ≠ (s.fds i).fd := hne
    simpa [Server.setBuf, hne'] using hw
  · exact (h.clear (s.fds i).fd).congr rfl
  · obtain ⟨h2, h3⟩ := h.receive hr hi (hlen msg he) (hmsg msg he)
    exact (h2.notified hn h3).congr rfl

theorem Owing.write (h : Owing s) (hr : Roster s) (hi : InUse s i) (hb : s.branch i = .write)
    (hs : s.write i = some s') : Owing s' := by
  have hrec := h.record (.writable (s.conn (s.fds i).fd)) (by simp)
  rcases write_cases hs with ⟨-, rfl⟩ | ⟨x, msg, hx, hmsg, rfl⟩
  · exact hrec.congr rfl
  · -- a client that is written to was registered for it, so it was owed what it is sent
    have hev := hr.registered pollout (by decide) i (by have := hi.1; omega) hi.2 (branch_write hb)
    obtain ⟨-, hfrom⟩ := hrec.owed i hi hev x hx
    refine ⟨fun j hj hp => ?_, hrec.attributed.append ?_⟩
    · rcases eq_or_ne j i with rfl | hji
      · intro y hy
        simp at hy
      · have hfd : (s.fds j).fd ≠ (s.fds i).fd := fun hfd => hji (hr.fd_inj hj hi hfd)
        simp only [Function.update_of_ne hji] at hp ⊢
        intro y hy
        have hy' : (s.users (s.fds j).fd).writeBuf = some y := by simpa [hfd] using hy
        obtain ⟨h1, h2⟩ := hrec.owed j hj hp y hy'
        refine ⟨h1, fun m hm => ?_⟩
        have hbuf : (Function.update s.users (s.fds i).fd
            { s.users (s.fds i).fd with writeBuf := none } y).buf = (s.users y).buf := by
          rcases eq_or_ne y (s.fds i).fd with rfl | hy <;> simp [*]
        rw [hbuf] at hm
        exact (h2 m hm).imp_right fun ⟨k, hk, hr⟩ => ⟨k, hk, List.mem_append_left _ hr⟩
    · intro c m hsent hne
      obtain ⟨rfl, rfl⟩ : s.conn (s.fds i).fd = c ∧ msg = m := by simpa using hsent
      exact (hfrom msg hmsg).resolve_left hne

theorem leaving_eq {received : RecvResult} (hp : s.phase = .scan i) (hi : i < s.userCount + 1)
    (hb : s.branch i = .departure ∨ s.branch i = .read ∧ received = .error) :
    s.leaving received = some i := by
  have hc : s.current = some i := by simp [Server.current, hp, hi]
  rcases hb with hb | ⟨hb, rfl⟩ <;> simp [Server.leaving, hc, hb]

theorem owing_step {e : Event} (h : Owing s) (ht : Tables s) (hok : Legal s e) (hharm : Harmless s e)
    (hstep : step s e = some s') : Owing s' := by
  rcases step_cases hstep with
    ⟨r, rfl, -, rfl⟩ | ⟨a, r, i, rfl, -, -, rfl⟩ | ⟨a, r, i, rfl, hp, hi, hex⟩
  · refine ⟨fun j hj hev => ?_, h.attributed⟩
    have hfd : ((s.poll r).fds j).fd = (s.fds j).fd ∧ ((s.poll r).fds j).events = (s.fds j).events := by
      simp only [Server.poll]
      split <;> exact ⟨rfl, rfl⟩
    rw [hfd.2] at hev
    have := h.owed j hj hev
    rw [Owed, hfd.1]
    exact this
  · exact h.congr rfl
  · have hin := ht.toRoster.inUse (ht.scanning i hp) hi
    have hleave : s.branch i = .departure ∨ s.branch i = .read ∧ r = .error →
        i = s.userCount ∨ ¬ s.Pending (s.fds i).fd :=
      fun hb => hharm.1 i (leaving_eq hp hi hb)
    unfold Server.examine at hex
    cases hb : s.branch i with
    | accept =>
      obtain rfl : { s.accept a with phase := .scan (i + 1) } = s' := by simpa [hb] using hex
      refine (h.accept ?_).congr rfl
      rintro fd rfl
      exact (hok.1 fd rfl).2.2.2
    | error | idle =>
      obtain rfl : { s with phase := .scan (i + 1) } = s' := by simpa [hb] using hex
      exact h.congr rfl
    | departure =>
      obtain rfl : { s.depart i with phase := .scan i } = s' := by simpa [hb] using hex
      exact (h.depart ht.toRoster (hin (.inl hb)) (hleave (.inl hb))).congr rfl
    | read =>
      obtain rfl : s.read r i = s' := by simpa [hb] using hex
      refine h.read ht.toRoster (hin (.inr (.inl hb))) ?_ ?_ fun he => hleave (.inr ⟨hb, he⟩)
      · rintro msg rfl
        exact hok.2.2
      · rintro msg rfl
        exact hharm.2
    | write => exact h.write ht.toRoster (hin (.inr (.inr hb))) hb (by simpa [hb] using hex)

theorem owing_init (h : Init s) : Owing s := by
  obtain ⟨-, -, hcount, -, hlog⟩ := h
  refine ⟨fun j ⟨h1, h2⟩ => by omega, fun n c msg hn => ?_⟩
  simp [hlog] at hn

/-- In a run in which no client leaves another's message overwritten, and data for others
are strings, whatever a client is sent was received before from another one. -/
theorem sent_attributed (h : Reach Init (fun s e => Legal s e ∧ Harmless s e) step s) :
    Attributed s.log := by
  have := h.invariant (I := fun s => Tables s ∧ Owing s) (fun s hi => ⟨tables_init hi, owing_init hi⟩)
    fun s e s' hi hok hs => ⟨tables_step hi.1 hok.1 hs, owing_step hi.2 hi.1 hok.1 hok.2 hs⟩
  exact this.2.attributed

/-- What `poll` reports when the entries of `l` have events. -/
def reports (l : List (ℤ × Flags)) (i : ℤ) : Flags := (l.lookup i).getD 0

/-- The events of a run in which the clients on 5 and 6 join. -/
def joins : List Event :=
  [.poll (reports [(0, pollin)]), .examine (some 5) .again, .examine none .again, .examine none .again,
    .poll (reports [(0, pollin)]), .examine (some 6) .again, .examine none .again, .examine none .again,
    .examine none .again]

/-- The first client sends a message and leaves when the second has been sent it. -/
theorem sent_attributed_two : Attributed ((play (fun s e => Legal s e ∧ Harmless s e) step start
    (joins ++ [.poll (reports [(1, pollin), (2, pollout)]), .examine none .again,
      .examine none (.data [104, 105]), .examine none .again, .examine none .again,
      .poll (reports [(2, pollout)]), .examine none .again, .examine none .again, .examine none .again,
      .examine none .again, .poll (reports [(1, pollrdhup)]), .examine none .again,
      .examine none .again])).get (by decide)).log :=
  sent_attributed (reach_of_play init_start (Option.some_get _).symm)

/-- Both send, the first leaves, and the second is sent its own message. -/
theorem sent_own_message :
    ¬ ∀ s : Server, Reach Init Legal step s → Attributed s.log := by
  intro h
  let run := (play Legal step start (joins ++ [.poll (reports [(1, pollin), (2, pollin)]),
    .examine none .again, .examine none (.data [104]), .examine none (.data [105]),
    .examine none .again, .poll (reports [(1, pollrdhup), (2, pollout)]), .examine none .again,
    .examine none .again, .examine none .again])).get (by decide)
  have hlog : run.log =
      [.received 0 [104], .received 1 [105], .writable 1, .sent 1 [105]] := by decide
  obtain ⟨k, hk, hmem⟩ := h run (reach_of_play init_start (Option.some_get _).symm) 3 1 [105]
    (by rw [hlog]; rfl) (by decide)
  rw [hlog] at hmem
  simp at hmem
  exact hk hmem

end LinuxServer.PollChat
