import LinuxServer.PollChatAttribution

/-!
# What a broadcast reaches

A client has one pointer to what it is to be sent, and the sender one buffer.  A
message is delivered to every other client as long as neither is used again before
the client becomes writable.
-/

namespace LinuxServer.PollChat
open CString

/-- The strings sent to a connection. -/
def sentTo (c : ℕ) (log : List Record) : List (List UInt8) :=
  log.filterMap fun
    | .sent k msg => if k = c then some msg else none
    | _ => none

namespace Server

/-- The client that a step reads from. -/
def reading (s : Server) : Option ℤ :=
  match s.current with
  | none => none
  | some i => if s.branch i = .read then some (s.fds i).fd else none

end Server

/-- The client on `b` does not leave. -/
def Stays (b : ℤ) (s : Server) : Event → Prop
  | .poll _ => True
  | .examine _ received =>
    ∀ i ∈ s.leaving received, (s.fds i).fd ≠ b

/-- Neither the pointer of the client on `b` nor the buffer of `a` is used again: only
`b` has data, nothing is read from `a`, and `a` does not leave from another entry than
the last. -/
def Undisturbed (a b : ℤ) (s : Server) : Event → Prop
  | .poll _ => True
  | .examine _ received =>
    (∀ i ∈ s.leaving received, (s.fds i).fd = a → i = s.userCount) ∧
      ∀ fd ∈ s.reading, fd ≠ a ∧ (fd = b ∨ ∀ msg, received ≠ .data msg)

/-- Data contain no NUL. -/
def NulFree : Event → Prop
  | .examine _ (.data msg) => 0 ∉ msg
  | _ => True

instance (b : ℤ) (s : Server) : (e : Event) → Decidable (Stays b s e)
  | .poll _ => isTrue trivial
  | .examine _ _ => inferInstanceAs (Decidable (∀ i ∈ _, _ ≠ _))

instance (received : RecvResult) : Decidable (∀ msg, received ≠ .data msg) :=
  match received with
  | .data msg => isFalse fun h => h msg rfl
  | .eof => isTrue (by simp)
  | .again => isTrue (by simp)
  | .error => isTrue (by simp)

instance (a b : ℤ) (s : Server) : (e : Event) → Decidable (Undisturbed a b s e)
  | .poll _ => isTrue trivial
  | .examine _ _ => inferInstanceAs (Decidable (_ ∧ _))

instance : (e : Event) → Decidable (NulFree e)
  | .poll _ => isTrue trivial
  | .examine _ (.data msg) => inferInstanceAs (Decidable (0 ∉ msg))
  | .examine _ .eof => isTrue trivial
  | .examine _ .again => isTrue trivial
  | .examine _ .error => isTrue trivial

instance (s : Server) (j : ℤ) : Decidable (InUse s j) := inferInstanceAs (Decidable (_ ∧ _))

/-! ## Between the broadcast and the write -/

variable {s s' t : Server} {a b i : ℤ} {c : ℕ} {msg : List UInt8} {log0 : List Record}

/-- The client on `b` is still to be sent `msg`, or has been sent it and nothing else,
since the log was `log0`. -/
inductive Delivery (a b : ℤ) (c : ℕ) (msg : List UInt8) (t : Server) (new : List Record) : Prop
  | waiting : Record.writable c ∉ new → sentTo c new = [] → (t.users b).writeBuf = some a →
      str (t.users a).buf 0 = some msg → Delivery a b c msg t new
  | done : Record.writable c ∈ new → sentTo c new = [msg] → (t.users b).writeBuf = none →
      Delivery a b c msg t new

/-- The client on `b` is connected, and `msg` on its way to it. -/
structure Delivering (a b : ℤ) (c : ℕ) (msg : List UInt8) (log0 : List Record) (t : Server) : Prop where
  ne : a ≠ b
  client : ∃ j, InUse t j ∧ (t.fds j).fd = b
  conn : t.conn b = c
  delivery : ∃ new, t.log = log0 ++ new ∧ Delivery a b c msg t new

/-- What the rest of the server does keeps a delivery. -/
theorem Delivering.frame (h : Delivering a b c msg log0 s) (recs : List Record)
    (hclient : ∃ j, InUse s' j ∧ (s'.fds j).fd = b) (hconn : s'.conn b = s.conn b)
    (hlog : s'.log = s.log ++ recs) (hw : Record.writable c ∉ recs) (hs : sentTo c recs = [])
    (hb : (s'.users b).writeBuf = (s.users b).writeBuf) (ha : (s'.users a).buf = (s.users a).buf) :
    Delivering a b c msg log0 s' := by
  obtain ⟨new, hnew, hd⟩ := h.delivery
  refine ⟨h.ne, hclient, hconn.trans h.conn, new ++ recs, by rw [hlog, hnew, List.append_assoc], ?_⟩
  have hsent : sentTo c (new ++ recs) = sentTo c new := by
    simp only [sentTo, List.filterMap_append] at hs ⊢
    rw [hs, List.append_nil]
  rcases hd with ⟨h1, h2, h3, h4⟩ | ⟨h1, h2, h3⟩
  · exact .waiting (by simp [h1, hw]) (hsent.trans h2) (hb.trans h3) (by rw [ha, h4])
  · exact .done (by simp [h1]) (hsent.trans h2) (hb.trans h3)

theorem Delivering.join (h : Delivering a b c msg log0 s) {fd : ℤ} (hfresh : ∀ p ∈ s.entries, p.fd ≠ fd) :
    Delivering a b c msg log0 (s.join fd) := by
  obtain ⟨j, hj, hjb⟩ := h.client
  have hne : b ≠ fd := hjb ▸ hfresh _ (mem_entries.mpr ⟨j, hj, rfl⟩)
  have hold : j ≠ s.userCount + 1 := by have := hj.2; omega
  refine h.frame [] ⟨j, ⟨hj.1, ?_⟩, ?_⟩ ?_ (by simp [Server.join]) (by simp) rfl rfl rfl
  · have := hj.2
    simp only [Server.join]
    omega
  · simp [Server.join, hold, hjb]
  · simp [Server.join, hne]

theorem Delivering.depart (h : Delivering a b c msg log0 s) (hi : InUse s i) (hb : (s.fds i).fd ≠ b)
    (ha : (s.fds i).fd = a → i = s.userCount) : Delivering a b c msg log0 (s.depart i) := by
  obtain ⟨j, hj, hjb⟩ := h.client
  have hji : j ≠ i := fun e => hb (e ▸ hjb)
  -- the client moves into the entry of the leaver, or stays where it is
  have hclient : ∃ k, InUse (s.depart i) k ∧ ((s.depart i).fds k).fd = b := by
    rcases eq_or_ne j s.userCount with rfl | hlast
    · refine ⟨i, ⟨hi.1, ?_⟩, ?_⟩
      · have := hi.2
        simp only [Server.depart]
        omega
      · rw [depart_fds, source, if_pos rfl, hjb]
    · refine ⟨j, ⟨hj.1, ?_⟩, ?_⟩
      · have := hj.2
        simp only [Server.depart]
        omega
      · rw [depart_fds, source, if_neg hji, hjb]
  have hself : (s.depart i).users b = s.users b := by simp [Server.depart, Ne.symm hb]
  have hbuf : (s.depart i).users a = s.users a := by
    by_cases hia : (s.fds i).fd = a
    · rw [← hia]
      simp [Server.depart, ha hia]
    · simp [Server.depart, Ne.symm hia]
  exact h.frame [] hclient rfl (by simp [Server.depart]) (by simp) rfl (by rw [hself]) (by rw [hbuf])

theorem Delivering.setBuf (h : Delivering a b c msg log0 s) {fd : ℤ} (ha : fd ≠ a) (buf : List UInt8) :
    Delivering a b c msg log0 (s.setBuf fd buf) := by
  have hbuf : ((s.setBuf fd buf).users a).buf = (s.users a).buf := by simp [Server.setBuf, Ne.symm ha]
  have hself : ((s.setBuf fd buf).users b).writeBuf = (s.users b).writeBuf := by
    rcases eq_or_ne b fd with rfl | hb <;> simp [Server.setBuf, *]
  exact h.frame [] h.client rfl (by simp [Server.setBuf]) (by simp) rfl hself hbuf

theorem Delivering.congr (h : Delivering a b c msg log0 s) (hmail : s'.mail = s.mail) :
    Delivering a b c msg log0 s' := by
  simp only [Server.mail, Prod.mk.injEq] at hmail
  obtain ⟨h1, h2, h3, h4, h5⟩ := hmail
  refine h.frame [] ?_ (by rw [h2]) (by simp [h3]) (by simp) rfl (by rw [h1]) (by rw [h1])
  obtain ⟨j, hj, hjb⟩ := h.client
  exact ⟨j, by rwa [InUse, h5], by rw [h4, hjb]⟩

/-- A broadcast of the client on `b` itself. -/
theorem Delivering.notified (h : Delivering a b c msg log0 s) {n : ℕ} {j : ℤ}
    (hn : Notified s s' b n j) : Delivering a b c msg log0 s' := by
  obtain ⟨k, hk, hkb⟩ := h.client
  refine h.frame [] ⟨k, hn.inUse.mpr hk, (hn.fd k).trans hkb⟩ (by rw [hn.frame])
    (by rw [hn.frame]; simp) (by simp) rfl ?_ (hn.buf a)
  exact hn.writeBuf_other b fun l hl => hl.2.2

theorem Delivering.read (h : Delivering a b c msg log0 s) (hi : InUse s i) {received : RecvResult}
    (hstay : received = .error → (s.fds i).fd ≠ b) (ha : (s.fds i).fd ≠ a)
    (hdata : (s.fds i).fd = b ∨ ∀ m, received ≠ .data m) :
    Delivering a b c msg log0 (s.read received i) := by
  rcases read_cases received i s with ⟨he, h1⟩ | ⟨-, h1⟩ | ⟨m, s1, he, h1, hn⟩ <;> rw [h1]
  · exact ((h.setBuf ha _).depart hi (hstay he) fun hia => absurd hia ha).congr rfl
  · exact (h.setBuf ha _).congr rfl
  · -- a message of the client itself changes everybody's pointer but its own
    have hfd : (s.fds i).fd = b := hdata.resolve_right fun hno => hno m he
    have hrecv : Delivering a b c msg log0 (s.receive (s.fds i).fd m) := by
      have h0 := h.setBuf ha (m ++ List.replicate (bufferSize - m.length) 0)
      exact h0.frame [.received (s.conn (s.fds i).fd) m] h0.client rfl rfl (by simp) rfl rfl rfl
    rw [hfd] at hn hrecv
    exact (hrecv.notified hn).congr rfl

theorem Delivering.write (h : Delivering a b c msg log0 s) (hr : Roster s) (hi : InUse s i)
    (hs : s.write i = some s') : Delivering a b c msg log0 s' := by
  obtain ⟨j, hj, hjb⟩ := h.client
  by_cases hfd : (s.fds i).fd = b
  · -- the write that delivers, or one after it that finds the pointer cleared
    obtain ⟨new, hnew, hd⟩ := h.delivery
    rw [← h.conn] at hd ⊢
    subst hfd
    rcases write_cases hs with ⟨hw, rfl⟩ | ⟨x, m, hx, hm, rfl⟩
    · refine ⟨h.ne, ⟨j, hj, hjb⟩, rfl, new ++ [.writable (s.conn (s.fds i).fd)],
        by simp [hnew], ?_⟩
      rcases hd with ⟨-, -, h3, -⟩ | ⟨-, h2, h3⟩
      · rw [hw] at h3
        cases h3
      · refine .done (by simp) ?_ h3
        simpa [sentTo] using h2
    · refine ⟨h.ne, ⟨i, hi, by simp⟩, rfl,
        new ++ [.writable (s.conn (s.fds i).fd), .sent (s.conn (s.fds i).fd) m], by simp [hnew], ?_⟩
      rcases hd with ⟨-, h2, h3, h4⟩ | ⟨-, -, h3⟩
      · obtain rfl : a = x := by simpa [h3] using hx
        obtain rfl : msg = m := by simpa [h4] using hm
        refine .done (by simp) ?_ (by simp)
        simp only [sentTo, List.filterMap_append] at h2 ⊢
        simp [h2]
      · rw [hx] at h3
        cases h3
  · -- a write to another client, whose connection has another number
    have hji : j ≠ i := fun e => hfd (e ▸ hjb)
    have hc : s.conn (s.fds i).fd ≠ c := by
      rw [← h.conn, ← hjb]
      exact fun e => hji (hr.conn_inj i j hi hj e).symm
    rcases write_cases hs with ⟨-, rfl⟩ | ⟨x, m, -, -, rfl⟩
    · exact h.frame [.writable (s.conn (s.fds i).fd)] ⟨j, hj, hjb⟩ rfl rfl
        (by simpa using Ne.symm hc) rfl rfl rfl
    · refine h.frame [.writable (s.conn (s.fds i).fd), .sent (s.conn (s.fds i).fd) m]
        ⟨j, hj, by simp [hji, hjb]⟩ rfl (by simp) (by simpa using Ne.symm hc) (by simp [sentTo, hc]) ?_ ?_
      · simp [Ne.symm hfd]
      · rcases eq_or_ne a (s.fds i).fd with rfl | hne <;> simp [*]

theorem delivering_step {e : Event} (h : Delivering a b c msg log0 s) (ht : Tables s) (hok : Legal s e)
    (hstay : Stays b s e) (hund : Undisturbed a b s e) (hstep : step s e = some s') :
    Delivering a b c msg log0 s' := by
  rcases step_cases hstep with
    ⟨r, rfl, -, rfl⟩ | ⟨x, r, i, rfl, -, -, rfl⟩ | ⟨x, r, i, rfl, hp, hi, hex⟩
  · obtain ⟨j, hj, hjb⟩ := h.client
    refine h.frame [] ⟨j, hj, ?_⟩ rfl (by simp [Server.poll]) (by simp) rfl rfl rfl
    simp only [Server.poll]
    split <;> exact hjb
  · exact h.congr rfl
  · have hin := ht.toRoster.inUse (ht.scanning i hp) hi
    have hleave : s.branch i = .departure ∨ s.branch i = .read ∧ r = .error →
        (s.fds i).fd ≠ b ∧ ((s.fds i).fd = a → i = s.userCount) := fun hb =>
      ⟨hstay i (leaving_eq hp hi hb), hund.1 i (leaving_eq hp hi hb)⟩
    unfold Server.examine at hex
    cases hb : s.branch i with
    | accept =>
      obtain rfl : { s.accept x with phase := .scan (i + 1) } = s' := by simpa [hb] using hex
      refine Delivering.congr (s := s.accept x) ?_ rfl
      cases x with
      | none => exact h
      | some fd =>
        simp only [Server.accept]
        split
        · exact h
        · exact h.join (hok.1 fd rfl).2.2.2
    | error | idle =>
      obtain rfl : { s with phase := .scan (i + 1) } = s' := by simpa [hb] using hex
      exact h.congr rfl
    | departure =>
      obtain rfl : { s.depart i with phase := .scan i } = s' := by simpa [hb] using hex
      obtain ⟨h1, h2⟩ := hleave (.inl hb)
      exact (h.depart (hin (.inl hb)) h1 h2).congr rfl
    | read =>
      obtain rfl : s.read r i = s' := by simpa [hb] using hex
      have hreading : s.reading = some (s.fds i).fd := by
        simp [Server.reading, Server.current, hp, hi, hb]
      have h2 := hund.2 _ hreading
      exact h.read (hin (.inr (.inl hb))) (fun he => (hleave (.inr ⟨hb, he⟩)).1) h2.1 h2.2
    | write => exact h.write ht.toRoster (hin (.inr (.inr hb))) (by simpa [hb] using hex)

theorem current_eq (h : s.current = some i) : s.phase = .scan i ∧ i < s.userCount + 1 := by
  unfold Server.current at h
  split at h
  · cases h
  next k hp =>
    split at h
    next hi =>
      obtain rfl : k = i := by simpa using h
      exact ⟨hp, hi⟩
    · cases h

theorem step_read {accepted : Option ℤ} {received : RecvResult} (hcur : s.current = some i)
    (hb : s.branch i = .read) : step s (.examine accepted received) = some (s.read received i) := by
  obtain ⟨hp, hi⟩ := current_eq hcur
  simp [step, hp, hi, Server.examine, hb]

/-- Right after the broadcast. -/
theorem delivering_start {j : ℤ} (hr : Roster s) (hlen : msg.length < bufferSize) (h0 : 0 ∉ msg)
    (hi : InUse s i) (hj : InUse s j) (hji : j ≠ i) :
    Delivering (s.fds i).fd (s.fds j).fd (s.conn (s.fds j).fd) msg (s.read (.data msg) i).log
      (s.read (.data msg) i) := by
  have hne : (s.fds j).fd ≠ (s.fds i).fd := fun e => hji (hr.fd_inj hj hi e)
  rcases read_cases (.data msg) i s with ⟨he, -⟩ | ⟨he, -⟩ | ⟨m, s1, he, h1, hn⟩
  · cases he
  · rcases he with he | he <;> cases he
  · obtain rfl : msg = m := by simpa using he
    have hnot : Notifies (s.receive (s.fds i).fd msg) (s.fds i).fd s.userCount.toNat 1 j :=
      ⟨hj.1, by have := hj.2; omega, hne⟩
    have hstr : str (msg ++ List.replicate (bufferSize - msg.length) 0) 0 = some msg := by
      rw [str_padded _ (by omega), cstr_of_notMem h0]
    rw [h1]
    refine ⟨hne.symm, ⟨j, hn.inUse.mpr hj, hn.fd j⟩, by rw [hn.frame]; rfl, [], by simp, ?_⟩
    refine .waiting (by simp) rfl (hn.writeBuf j hnot) ?_
    show str (s1.users (s.fds i).fd).buf 0 = some msg
    rw [hn.buf]
    simpa [Server.receive, Server.setBuf] using hstr

/-- A message is sent exactly once to every other client, at the next execution of the
`POLLOUT` branch for it, in a run in which the client stays and neither its pointer nor
the buffer of the sender is used again. -/
theorem broadcast_delivered {j : ℤ} {accepted : Option ℤ} {s1 : Server} {es : List Event}
    (h : Reach Init Legal step s) (hcur : s.current = some i) (hb : s.branch i = .read)
    (hlegal : Legal s (.examine accepted (.data msg))) (h0 : 0 ∉ msg) (hj : InUse s j) (hji : j ≠ i)
    (hstep : step s (.examine accepted (.data msg)) = some s1)
    (hrun : Exec (fun u e => Legal u e ∧ Stays (s.fds j).fd u e ∧
      Undisturbed (s.fds i).fd (s.fds j).fd u e) step s1 es t) :
    sentTo (s.conn (s.fds j).fd) (t.log.drop s1.log.length) =
      if Record.writable (s.conn (s.fds j).fd) ∈ t.log.drop s1.log.length then [msg] else [] := by
  have ht := tables_reach (fun _ _ he => he) h
  have ht1 := tables_step ht hlegal hstep
  obtain rfl : s.read (.data msg) i = s1 := by simpa [step_read hcur hb] using hstep
  obtain ⟨hp, hlt⟩ := current_eq hcur
  have hi := ht.toRoster.inUse (ht.scanning i hp) hlt (.inr (.inl hb))
  have hstart := delivering_start ht.toRoster hlegal.2.2 h0 hi hj hji
  have hend := hrun.invariant
    (I := fun u => Tables u ∧ Delivering (s.fds i).fd (s.fds j).fd (s.conn (s.fds j).fd) msg
      (s.read (.data msg) i).log u)
    (fun u e u' hu he hs => ⟨tables_step hu.1 he.1 hs, delivering_step hu.2 hu.1 he.1 he.2.1 he.2.2 hs⟩)
    ⟨ht1, hstart⟩
  obtain ⟨new, hnew, hd⟩ := hend.2.delivery
  rw [hnew, List.drop_left]
  rcases hd with ⟨h1, h2, -, -⟩ | ⟨h1, h2, -⟩
  · rw [if_neg h1, h2]
  · rw [if_pos h1, h2]

/-- Two clients; both are about to be reported readable. -/
def bothJoined : List Event := joins ++ [.poll (reports [(1, pollin), (2, pollin)]), .examine none .again]

/-- The second client sends before it is sent the message of the first. -/
theorem broadcast_delivered_two :
    let s := (play Legal step start bothJoined).get (by decide)
    let s1 := (step s (.examine none (.data [104]))).get (by decide)
    let t := (play (fun u e => Legal u e ∧ Stays (s.fds 2).fd u e ∧
        Undisturbed (s.fds 1).fd (s.fds 2).fd u e) step s1
      [.examine none (.data [105]), .examine none .again, .poll (reports [(2, pollout)]),
        .examine none .again, .examine none .again, .examine none .again]).get (by decide)
    sentTo (s.conn (s.fds 2).fd) (t.log.drop s1.log.length) =
      if Record.writable (s.conn (s.fds 2).fd) ∈ t.log.drop s1.log.length then [[104]] else [] := by
  intro s s1 t
  have hs : Reach Init Legal step s := reach_of_play init_start (Option.some_get _).symm
  have hs1 : step s (.examine none (.data [104])) = some s1 := (Option.some_get _).symm
  exact broadcast_delivered hs (by decide) (by decide) (by decide) (by decide) (by decide) (by decide) hs1
    (exec_of_play (Option.some_get _).symm)

/-- A client sends twice before the other becomes writable, and its first message is
never sent. -/
theorem broadcast_replaced :
    ¬ ∀ (s s1 t : Server) (i j : ℤ) (accepted : Option ℤ) (msg : List UInt8) (es : List Event),
      Reach Init (fun u e => Legal u e ∧ NulFree e) step s → s.current = some i → s.branch i = .read →
      Legal s (.examine accepted (.data msg)) → 0 ∉ msg → InUse s j → j ≠ i →
      step s (.examine accepted (.data msg)) = some s1 →
      Exec (fun u e => (Legal u e ∧ NulFree e) ∧ Stays (s.fds j).fd u e) step s1 es t →
      Record.writable (s.conn (s.fds j).fd) ∈ t.log.drop s1.log.length →
      Record.sent (s.conn (s.fds j).fd) msg ∈ t.log.drop s1.log.length := by
  intro h
  let s := (play (fun u e => Legal u e ∧ NulFree e) step start bothJoined).get (by decide)
  let s1 := (step s (.examine none (.data [104]))).get (by decide)
  let t := (play (fun u e => (Legal u e ∧ NulFree e) ∧ Stays 6 u e) step s1
    [.examine none .again, .examine none .again, .poll (reports [(1, pollin)]),
      .examine none .again, .examine none (.data [105]), .examine none .again, .examine none .again,
      .poll (reports [(2, pollout)]), .examine none .again, .examine none .again,
      .examine none .again]).get (by decide)
  have hlog : t.log.drop s1.log.length = [.received 0 [105], .writable 1, .sent 1 [105]] := by decide
  have hsent := h s s1 t 1 2 none [104] _ (reach_of_play init_start (Option.some_get _).symm) (by decide)
    (by decide) (by decide) (by decide) (by decide) (by decide) (Option.some_get _).symm
    (exec_of_play (Option.some_get _).symm)
  rw [hlog] at hsent
  exact absurd (hsent (by decide)) (by decide)

end LinuxServer.PollChat
