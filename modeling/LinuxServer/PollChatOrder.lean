import LinuxServer.PollChatDelivery

/-!
# In which order a client is sent the messages of the others

A message may be overtaken by a later one before it is sent, and is then lost.  What is sent
was received after everything that was sent before it.
-/

namespace LinuxServer.PollChat
open CString

/-- The messages received from other connections, with their senders. -/
def heardBy (c : ℕ) (log : List Record) : List (ℕ × List UInt8) :=
  log.filterMap fun
    | .received k msg => if k = c then none else some (k, msg)
    | _ => none

/-- The strings that were sent to a connection, without empty ones. -/
def toldTo (c : ℕ) (log : List Record) : List (List UInt8) := (sentTo c log).filter fun msg => msg ≠ []

/-- The server that remembers nothing before the `k`-th record. -/
def Server.since (k : ℕ) (s : Server) : Server := { s with log := s.log.drop k }

/-- Everything sent to the connection `c` was among the first `k` records, and what it would be
sent is from a later one. -/
structure InTurn (c k : ℕ) (s : Server) : Prop where
  le : k ≤ s.log.length
  told : (toldTo c s.log).Sublist ((heardBy c (s.log.take k)).map Prod.snd)
  owed : ∀ j, InUse s j → s.conn (s.fds j).fd = c → has (s.fds j).events pollout = true →
    Owed (s.since k) (s.fds j)

variable {s s' : Server} {c k : ℕ} {i : ℤ}

theorem toldTo_append {log recs : List Record} (h : sentTo c recs = []) :
    toldTo c (log ++ recs) = toldTo c log := by
  have hsent : sentTo c (log ++ recs) = sentTo c log ++ sentTo c recs := List.filterMap_append
  rw [toldTo, hsent, h, List.append_nil, toldTo]

/-- What does not send to `c` only has to see to what is owed. -/
theorem InTurn.frame (h : InTurn c k s) (recs : List Record) (hlog : s'.log = s.log ++ recs)
    (hs : sentTo c recs = [])
    (howed : ∀ j, InUse s' j → s'.conn (s'.fds j).fd = c → has (s'.fds j).events pollout = true →
      Owed (s'.since k) (s'.fds j)) : InTurn c k s' := by
  refine ⟨?_, ?_, howed⟩
  · rw [hlog, List.length_append]
    exact h.le.trans (Nat.le_add_right _ _)
  · rw [hlog, toldTo_append hs, List.take_append_of_le_length h.le]
    exact h.told

/-- The log may grow, and what is owed is still owed. -/
theorem InTurn.still (h : InTurn c k s) {p : PollFd} (howed : Owed (s.since k) p) (recs : List Record)
    (hlog : s'.log = s.log ++ recs) (husers : s'.users = s.users) (hconn : s'.conn p.fd = s.conn p.fd) :
    Owed (s'.since k) p := by
  refine howed.congr husers hconn fun r hr => ?_
  show r ∈ s'.log.drop k
  rw [hlog, List.drop_append_of_le_length h.le]
  exact List.mem_append_left _ hr

theorem InTurn.congr (h : InTurn c k s) (hmail : s'.mail = s.mail) : InTurn c k s' := by
  simp only [Server.mail, Prod.mk.injEq] at hmail
  obtain ⟨h1, h2, h3, h4, h5⟩ := hmail
  have hlog : s'.log = s.log ++ [] := by rw [h3, List.append_nil]
  refine h.frame [] hlog rfl fun j hj hc hp => ?_
  rw [h4] at hc hp ⊢
  rw [InUse, h5] at hj
  rw [h2] at hc
  exact h.still (h.owed j hj hc hp) [] hlog h1 (by rw [h2])

theorem InTurn.poll (h : InTurn c k s) (revents : ℤ → Flags) : InTurn c k (s.poll revents) := by
  refine h.frame [] (List.append_nil _).symm rfl fun j hj hc hp => ?_
  have hfd : ((s.poll revents).fds j).fd = (s.fds j).fd ∧
      ((s.poll revents).fds j).events = (s.fds j).events := by
    simp only [Server.poll]
    split <;> exact ⟨rfl, rfl⟩
  rw [hfd.1] at hc
  rw [hfd.2] at hp
  have howed := h.owed j hj hc hp
  rw [Owed] at howed ⊢
  rw [hfd.1]
  exact howed

theorem InTurn.join (h : InTurn c k s) {connfd : ℤ} (hfresh : ∀ p ∈ s.entries, p.fd ≠ connfd) :
    InTurn c k (s.join connfd) := by
  refine h.frame [] (List.append_nil _).symm rfl fun j ⟨h1, h2⟩ hc hp => ?_
  rcases eq_or_ne j (s.userCount + 1) with rfl | hj
  · exact absurd hp (by simp [Server.join, has_or]; decide)
  · have hold : (s.join connfd).fds j = s.fds j := by simp [Server.join, hj]
    have hin : InUse s j := ⟨h1, by simp only [Server.join] at h2; omega⟩
    rw [hold] at hp hc ⊢
    have hconn : (s.join connfd).conn (s.fds j).fd = s.conn (s.fds j).fd := by
      simp [Server.join, hfresh _ (mem_entries.mpr ⟨j, hin, rfl⟩)]
    rw [hconn] at hc
    exact h.still (h.owed j hin hc hp) [] (List.append_nil _).symm rfl hconn

theorem InTurn.accept (h : InTurn c k s) {accepted : Option ℤ}
    (hfresh : ∀ fd, accepted = some fd → ∀ p ∈ s.entries, p.fd ≠ fd) : InTurn c k (s.accept accepted) := by
  cases accepted with
  | none => exact h
  | some fd =>
    simp only [Server.accept]
    split
    · exact h
    · exact h.join (hfresh fd rfl)

/-- A departure that overwrites no message that someone has to be sent. -/
theorem InTurn.depart (h : InTurn c k s) (hr : Roster s) (hi : InUse s i)
    (hok : i = s.userCount ∨ ¬ s.Pending (s.fds i).fd) : InTurn c k (s.depart i) := by
  refine h.frame [] (List.append_nil _).symm rfl fun j hj hc hp => ?_
  rw [depart_fds] at hp hc ⊢
  obtain ⟨hin, hne⟩ := source_inUse hi hj
  have hfd : (s.fds (source s i j)).fd ≠ (s.fds i).fd := fun hfd => hne (hr.fd_inj hin hi hfd)
  have howed := h.owed _ hin hc hp
  rcases hok with rfl | hpend
  · have hsame : (s.depart s.userCount).users = s.users := by simp [Server.depart]
    exact h.still howed [] (List.append_nil _).symm hsame rfl
  · intro x hx
    have hself : (s.depart i).users (s.fds (source s i j)).fd = s.users (s.fds (source s i j)).fd := by
      simp [Server.depart, hfd]
    have hx' : (s.users (s.fds (source s i j)).fd).writeBuf = some x := hself ▸ hx
    obtain ⟨hxne, hmsg⟩ := howed x hx'
    have hxi : x ≠ (s.fds i).fd := by
      rintro rfl
      exact hpend ⟨_, mem_entries.mpr ⟨_, hin, rfl⟩, hfd, hp, hx'⟩
    have hbuf : ((s.depart i).since k).users x = s.users x := by simp [Server.since, Server.depart, hxi]
    rw [hbuf]
    exact ⟨hxne, hmsg⟩

theorem InTurn.setBuf (h : InTurn c k s) {fd : ℤ} {buf : List UInt8}
    (hbuf : ∀ j, InUse s j → (s.fds j).fd ≠ fd → ∀ msg, str buf 0 = some msg →
      FromAnother (s.since k) (s.conn (s.fds j).fd) msg) : InTurn c k (s.setBuf fd buf) :=
  h.frame [] (List.append_nil _).symm rfl fun j hj hc hp => (h.owed j hj hc hp).setBuf (hbuf j hj)

theorem InTurn.clear (h : InTurn c k s) (fd : ℤ) :
    InTurn c k (s.setBuf fd (List.replicate bufferSize 0)) := by
  refine h.setBuf fun j _ _ msg hm => .inl ?_
  rw [str_zeros] at hm
  exact (Option.some.inj hm).symm

theorem InTurn.record (h : InTurn c k s) (r : Record) (hr : sentTo c [r] = []) :
    InTurn c k { s with log := s.log ++ [r] } :=
  h.frame [r] rfl hr fun j hj hc hp => h.still (h.owed j hj hc hp) [r] rfl rfl rfl

theorem InTurn.receive (h : InTurn c k s) (hr : Roster s) (hi : InUse s i) {msg : List UInt8}
    (hlen : msg.length < bufferSize) (hmsg : 1 < s.userCount → 0 ∉ msg ∨ msg.head? = some 0) :
    InTurn c k (s.receive (s.fds i).fd msg) ∧
      ∀ j, InUse s j → (s.fds j).fd ≠ (s.fds i).fd → ∀ m,
        str ((s.receive (s.fds i).fd msg).users (s.fds i).fd).buf 0 = some m →
          FromAnother ((s.receive (s.fds i).fd msg).since k) (s.conn (s.fds j).fd) m := by
  have hstr : str (msg ++ List.replicate (bufferSize - msg.length) 0) 0 = some (cstr msg) :=
    str_padded _ (by omega)
  have hmem : Record.received (s.conn (s.fds i).fd) msg ∈
      (s.log ++ [Record.received (s.conn (s.fds i).fd) msg]).drop k := by
    rw [List.drop_append_of_le_length h.le]
    simp
  have hfrom : ∀ j, InUse s j → (s.fds j).fd ≠ (s.fds i).fd → ∀ m,
      str (msg ++ List.replicate (bufferSize - msg.length) 0) 0 = some m →
        FromAnother (({ s with log := s.log ++ [.received (s.conn (s.fds i).fd) msg] } : Server).since k)
          (s.conn (s.fds j).fd) m := by
    intro j hj hne m hm
    obtain rfl : cstr msg = m := by simpa [hstr] using hm
    rcases hmsg (hi.one_lt hj hne) with h0 | h0
    · refine .inr ⟨s.conn (s.fds i).fd, fun hc => hne ?_, ?_⟩
      · rw [hr.conn_inj i j hi hj hc]
      · rw [cstr_of_notMem h0]
        exact hmem
    · exact .inl (cstr_of_head? h0)
  refine ⟨(h.record _ rfl).setBuf hfrom, fun j hj hne m hm => hfrom j hj hne m ?_⟩
  simpa [Server.receive, Server.setBuf] using hm

theorem InTurn.notified (h : InTurn c k s) (hn : Notified s s' (s.fds i).fd s.userCount.toNat 1)
    (hfrom : ∀ j, InUse s j → (s.fds j).fd ≠ (s.fds i).fd → ∀ m,
      str (s.users (s.fds i).fd).buf 0 = some m → FromAnother (s.since k) (s.conn (s.fds j).fd) m) :
    InTurn c k s' := by
  have hlog : s'.log = s.log := by rw [hn.frame]
  have hconn : s'.conn = s.conn := by rw [hn.frame]
  have hanother : ∀ {d m}, FromAnother (s.since k) d m → FromAnother (s'.since k) d m := by
    intro d m hm
    rwa [FromAnother, Server.since, hlog]
  refine h.frame [] (by rw [hlog, List.append_nil]) rfl fun j hj hc hp => ?_
  have hin := hn.inUse.mp hj
  rw [hn.fd, hconn] at hc
  intro x hx
  have hx' : (s'.users (s.fds j).fd).writeBuf = some x := by
    rw [← hn.fd]
    exact hx
  show x ≠ (s'.fds j).fd ∧ ∀ m, str (s'.users x).buf 0 = some m →
    FromAnother (s'.since k) (s'.conn (s'.fds j).fd) m
  rw [hn.fd, hconn, hn.buf]
  by_cases hk : Notifies s (s.fds i).fd s.userCount.toNat 1 j
  · -- the new message is later than all that was sent
    obtain rfl : (s.fds i).fd = x := by simpa [hn.writeBuf j hk] using hx'
    exact ⟨hk.2.2.symm, fun m hm => hanother (hfrom j hin hk.2.2 m hm)⟩
  · rw [hn.events_other j hk] at hp
    have hfd : (s.fds j).fd = (s.fds i).fd := by
      by_contra hne
      exact hk ⟨hin.1, by have := hin.2; omega, hne⟩
    rw [hn.writeBuf_other _ fun l hk' => hfd ▸ hk'.2.2] at hx'
    obtain ⟨h1, h2⟩ := h.owed j hin hc hp x hx'
    exact ⟨h1, fun m hm => hanother (h2 m hm)⟩

theorem InTurn.read (h : InTurn c k s) (hr : Roster s) (hi : InUse s i) {received : RecvResult}
    (hlen : ∀ msg, received = .data msg → msg.length < bufferSize)
    (hmsg : ∀ msg, received = .data msg → 1 < s.userCount → 0 ∉ msg ∨ msg.head? = some 0)
    (hok : received = .error → i = s.userCount ∨ ¬ s.Pending (s.fds i).fd) :
    InTurn c k (s.read received i) := by
  rcases read_cases received i s with ⟨he, h1⟩ | ⟨-, h1⟩ | ⟨msg, s1, he, h1, hn⟩ <;> rw [h1]
  · have hr0 : Roster (s.setBuf (s.fds i).fd (List.replicate bufferSize 0)) := hr.congr rfl
    refine ((h.clear (s.fds i).fd).depart hr0 hi ?_).congr rfl
    refine (hok he).imp_right fun hpend hpend' => hpend ?_
    obtain ⟨p, hp, hne, hev, hw⟩ := hpend'
    refine ⟨p, hp, hne, hev, ?_⟩
    have hne' : p.fd ≠ (s.fds i).fd := hne
    simpa [Server.setBuf, hne'] using hw
  · exact (h.clear (s.fds i).fd).congr rfl
  · obtain ⟨h2, h3⟩ := h.receive hr hi (hlen msg he) (hmsg msg he)
    exact (h2.notified hn h3).congr rfl

/-- After a string was sent, what it was is the past. -/
theorem InTurn.sent (h : InTurn c k s) {d : ℕ} {msg : List UInt8} (hd : c = d)
    (hfrom : FromAnother (s.since k) d msg) :
    ∃ l, k ≤ l ∧ l ≤ s.log.length ∧
      (toldTo c s.log ++ [msg].filter fun m => m ≠ []).Sublist ((heardBy c (s.log.take l)).map Prod.snd) := by
  subst hd
  rcases hfrom with rfl | ⟨a, ha, hr⟩
  · exact ⟨k, le_rfl, h.le, by simpa using h.told⟩
  · obtain ⟨before, after, hsplit⟩ := List.append_of_mem hr
    have hsplit : s.log.drop k = before ++ .received a msg :: after := hsplit
    have htake : s.log.take (k + (before.length + 1)) = s.log.take k ++ (before ++ [.received a msg]) := by
      rw [List.take_add, hsplit, List.take_length_add_append, List.take_succ_cons, List.take_zero]
    refine ⟨k + (before.length + 1), by omega, ?_, ?_⟩
    · have hlen := congrArg List.length hsplit
      rw [List.length_drop, List.length_append, List.length_cons] at hlen
      omega
    · rw [htake]
      have hheard : heardBy c (s.log.take k ++ (before ++ [.received a msg])) =
          heardBy c (s.log.take k) ++ (heardBy c before ++ [(a, msg)]) := by
        simp [heardBy, ha]
      rw [hheard, List.map_append, List.map_append]
      refine h.told.append ((List.filter_sublist).trans ?_)
      exact List.sublist_append_right _ _

theorem InTurn.write (h : InTurn c k s) (hr : Roster s) (hi : InUse s i) (hb : s.branch i = .write)
    (hs : s.write i = some s') : ∃ l, InTurn c l s' := by
  have hrec := h.record (.writable (s.conn (s.fds i).fd)) rfl
  rcases write_cases hs with ⟨-, rfl⟩ | ⟨x, msg, hx, hmsg, rfl⟩
  · exact ⟨k, hrec.congr rfl⟩
  by_cases hc : s.conn (s.fds i).fd = c
  · -- the client itself: nothing is owed to it any more
    have hev := hr.registered pollout (by decide) i (by have := hi.1; omega) hi.2 (branch_write hb)
    obtain ⟨-, hfrom⟩ := hrec.owed i hi hc hev x hx
    obtain ⟨l, -, hl, htold⟩ := hrec.sent hc.symm (hfrom msg hmsg)
    refine ⟨l, ?_, ?_, fun j hj hcj hp => ?_⟩
    · simp only [List.length_append] at hl ⊢
      omega
    · have hsent : toldTo c (s.log ++ [Record.writable (s.conn (s.fds i).fd)] ++
          [Record.sent (s.conn (s.fds i).fd) msg]) =
            toldTo c (s.log ++ [.writable (s.conn (s.fds i).fd)]) ++ [msg].filter fun m => m ≠ [] := by
        simp [toldTo, sentTo, hc, List.filterMap_append]
      show (toldTo c (s.log ++ [Record.writable (s.conn (s.fds i).fd)] ++
        [.sent (s.conn (s.fds i).fd) msg])).Sublist _
      rw [hsent, List.take_append_of_le_length hl]
      exact htold
    · have hji : j = i := by
        by_contra hji
        simp only [Function.update_of_ne hji] at hcj
        exact hji (hr.conn_inj j i hj hi (hcj.trans hc.symm))
      subst hji
      intro y hy
      simp [Server.since] at hy
  · refine ⟨k, hrec.frame [Record.sent (s.conn (s.fds i).fd) msg] rfl (by simp [sentTo, hc]) ?_⟩
    intro j hj hcj hp
    have hji : j ≠ i := by
      rintro rfl
      simp at hcj
      exact hc hcj
    have hfd : (s.fds j).fd ≠ (s.fds i).fd := fun hfd => hji (hr.fd_inj hj hi hfd)
    simp only [Function.update_of_ne hji] at hp hcj ⊢
    intro y hy
    have hy' : (s.users (s.fds j).fd).writeBuf = some y := by simpa [Server.since, hfd] using hy
    obtain ⟨h1, h2⟩ := h.owed j hj hcj hp y hy'
    refine ⟨h1, fun m hm => ?_⟩
    have hbuf : (Function.update s.users (s.fds i).fd
        { s.users (s.fds i).fd with writeBuf := none } y).buf = (s.users y).buf := by
      rcases eq_or_ne y (s.fds i).fd with rfl | hy <;> simp [*]
    have hm' : str (s.users y).buf 0 = some m := hbuf ▸ hm
    rcases h2 m hm' with h0 | ⟨d, hd, hr'⟩
    · exact .inl h0
    refine .inr ⟨d, hd, ?_⟩
    show Record.received d m ∈ (s.log ++ [Record.writable (s.conn (s.fds i).fd)] ++
      [Record.sent (s.conn (s.fds i).fd) msg]).drop k
    rw [List.append_assoc, List.drop_append_of_le_length h.le]
    exact List.mem_append_left _ hr'

theorem inTurn_step {e : Event} (h : InTurn c k s) (ht : Tables s) (hok : Legal s e) (hharm : Harmless s e)
    (hstep : step s e = some s') : ∃ l, InTurn c l s' := by
  rcases step_cases hstep with
    ⟨r, rfl, -, rfl⟩ | ⟨a, r, i, rfl, -, -, rfl⟩ | ⟨a, r, i, rfl, hp, hi, hex⟩
  · exact ⟨k, h.poll r⟩
  · exact ⟨k, h.congr rfl⟩
  · have hin := ht.toRoster.inUse (ht.scanning i hp) hi
    have hleave : s.branch i = .departure ∨ s.branch i = .read ∧ r = .error →
        i = s.userCount ∨ ¬ s.Pending (s.fds i).fd :=
      fun hb => hharm.1 i (leaving_eq hp hi hb)
    unfold Server.examine at hex
    cases hb : s.branch i with
    | accept =>
      obtain rfl : { s.accept a with phase := .scan (i + 1) } = s' := by simpa [hb] using hex
      refine ⟨k, (h.accept ?_).congr rfl⟩
      rintro fd rfl
      exact (hok.1 fd rfl).2.2.2
    | error | idle =>
      obtain rfl : { s with phase := .scan (i + 1) } = s' := by simpa [hb] using hex
      exact ⟨k, h.congr rfl⟩
    | departure =>
      obtain rfl : { s.depart i with phase := .scan i } = s' := by simpa [hb] using hex
      exact ⟨k, (h.depart ht.toRoster (hin (.inl hb)) (hleave (.inl hb))).congr rfl⟩
    | read =>
      obtain rfl : s.read r i = s' := by simpa [hb] using hex
      refine ⟨k, h.read ht.toRoster (hin (.inr (.inl hb))) ?_ ?_ fun he => hleave (.inr ⟨hb, he⟩)⟩
      · rintro msg rfl
        exact hok.2.2
      · rintro msg rfl
        exact hharm.2
    | write => exact h.write ht.toRoster (hin (.inr (.inr hb))) hb (by simpa [hb] using hex)

theorem inTurn_init (h : Init s) (c : ℕ) : InTurn c 0 s := by
  obtain ⟨-, -, hcount, -, hlog⟩ := h
  refine ⟨Nat.zero_le _, ?_, fun j ⟨h1, h2⟩ => by omega⟩
  simp [hlog, toldTo, sentTo]

theorem inTurn_reach (h : Reach Init (fun s e => Legal s e ∧ Harmless s e) step s) (c : ℕ) :
    ∃ k, InTurn c k s := by
  have := h.invariant (I := fun s => Tables s ∧ ∃ k, InTurn c k s)
    (fun s hi => ⟨tables_init hi, 0, inTurn_init hi c⟩)
    fun s e s' ⟨ht, k, hk⟩ hok hs => ⟨tables_step ht hok.1 hs, inTurn_step hk ht hok.1 hok.2 hs⟩
  exact this.2

theorem InTurn.sublist (h : InTurn c k s) :
    (toldTo c s.log).Sublist ((heardBy c s.log).map Prod.snd) :=
  h.told.trans (((List.take_sublist k s.log).filterMap _).map _)

/-- In a run in which no client leaves another's message overwritten, and data for others are
strings, a client is sent messages of the others in the order in which they were received, none twice. -/
theorem sent_in_order (h : Reach Init (fun s e => Legal s e ∧ Harmless s e) step s) (c : ℕ) :
    (toldTo c s.log).Sublist ((heardBy c s.log).map Prod.snd) := by
  obtain ⟨k, hk⟩ := inTurn_reach h c
  exact hk.sublist

/-- The second client is sent two messages of the first. -/
theorem sent_in_order_two : ∃ s : Server, toldTo 1 s.log = [[104], [105]] ∧
    (toldTo 1 s.log).Sublist ((heardBy 1 s.log).map Prod.snd) := by
  let s := (play (fun s e => Legal s e ∧ Harmless s e) step start
    (joins ++ ([104, 105] : List UInt8).flatMap fun byte =>
      [.poll (reports [(1, pollin)]), .examine none .again, .examine none (.data [byte]),
        .examine none .again, .examine none .again, .poll (reports [(2, pollout)]), .examine none .again,
        .examine none .again, .examine none .again, .examine none .again])).get (by decide)
  have h : Reach Init (fun s e => Legal s e ∧ Harmless s e) step s :=
    reach_of_play init_start (Option.some_get _).symm
  exact ⟨s, by decide, sent_in_order h 1⟩

end LinuxServer.PollChat
