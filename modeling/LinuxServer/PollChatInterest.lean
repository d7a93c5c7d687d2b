import LinuxServer.PollChatRoster

/-!
# What the clients of the chat server are polled for

A client with something to write is to be polled for writing only, the others for
reading.  `events |= ~POLLIN` clears no flag: it sets all the others.
-/

namespace LinuxServer.PollChat

/-- The client at entry `j` is polled for writing just when it has something to write,
and for reading just when it has not. -/
def Interest (s : Server) (j : ℤ) : Prop :=
  (has (s.fds j).events pollout = true ↔ (s.users (s.fds j).fd).writeBuf ≠ none) ∧
    (has (s.fds j).events pollin = true ↔ (s.users (s.fds j).fd).writeBuf = none)

/-- In front of the first `poll`, every `write_buf` being `NULL`. -/
def Blank (s : Server) : Prop := Init s ∧ ∀ x, (s.users x).writeBuf = none

/-- A message is only received while no other client is connected. -/
def Alone (s : Server) : Event → Prop
  | .examine _ (.data _) => ∀ i ∈ s.current, s.branch i = .read → s.userCount ≤ 1
  | _ => True

instance (s : Server) : (e : Event) → Decidable (Alone s e)
  | .examine _ (.data _) => inferInstanceAs (Decidable (∀ _ ∈ _, _))
  | .examine _ .eof => isTrue trivial
  | .examine _ .again => isTrue trivial
  | .examine _ .error => isTrue trivial
  | .poll _ => isTrue trivial

/-- Nobody has anything to write, and all clients are polled for reading. -/
structure Calm (s : Server) : Prop where
  tables : Tables s
  writeBuf : ∀ x, (s.users x).writeBuf = none
  events : ∀ j, InUse s j → has (s.fds j).events pollin = true ∧ has (s.fds j).events pollout = false

variable {s s' : Server} {i j : ℤ} {e : Event}

theorem Calm.interest (h : Calm s) (hj : InUse s j) : Interest s j := by
  obtain ⟨hin, hout⟩ := h.events j hj
  simp [Interest, hin, hout, h.writeBuf]

theorem calm_init (h : Blank s) : Calm s := by
  refine ⟨tables_init h.1, h.2, fun j hj => ?_⟩
  have := h.1.2.2.1
  obtain ⟨h1, h2⟩ := hj
  omega

/-- A message to nobody changes no entry and no `write_buf`. -/
theorem Notified.alone {connfd : ℤ} {n : ℕ} (hn : Notified s s' connfd n 1)
    (hno : ∀ k, ¬ Notifies s connfd n 1 k) :
    (∀ k, (s'.fds k).events = (s.fds k).events) ∧ ∀ x, (s'.users x).writeBuf = (s.users x).writeBuf :=
  ⟨fun k => hn.events_other k (hno k), fun x => hn.writeBuf_other x fun k hk => absurd hk (hno k)⟩

/-- What an iteration does to the flags and the pointers when nobody is written to. -/
theorem Calm.frame (h : Calm s) (ht : Tables s') (hw : ∀ x, (s'.users x).writeBuf = none)
    (hf : ∀ j, InUse s' j → (∃ k, InUse s k ∧ (s'.fds j).events = (s.fds k).events) ∨
      (s'.fds j).events = pollin ||| pollrdhup ||| pollerr) : Calm s' := by
  refine ⟨ht, hw, fun j hj => ?_⟩
  rcases hf j hj with ⟨k, hk, he⟩ | he <;> rw [he]
  · exact h.events k hk
  · decide

theorem Calm.depart (h : Calm s) (hi : InUse s i) (ht : Tables s') (hfds : s'.fds = (s.depart i).fds)
    (hc : s'.userCount = s.userCount - 1) (hw : ∀ x, (s'.users x).writeBuf = none) : Calm s' := by
  refine h.frame ht hw fun j hj => .inl ⟨source s i j, (source_inUse hi ?_).1, ?_⟩
  · exact ⟨hj.1, by simpa [Server.depart, ← hc] using hj.2⟩
  · rw [hfds, depart_fds]

theorem Calm.step (h : Calm s) (hok : Legal s e) (halone : Alone s e)
    (hstep : PollChat.step s e = some s') : Calm s' := by
  have ht : Tables s' := tables_step h.tables hok hstep
  rcases step_cases hstep with
    ⟨r, rfl, -, rfl⟩ | ⟨a, r, i, rfl, -, -, rfl⟩ | ⟨a, r, i, rfl, hp, hi, hex⟩
  · refine h.frame ht h.writeBuf fun j hj => .inl ⟨j, hj, ?_⟩
    simp only [Server.poll]
    split <;> rfl
  · exact h.frame ht h.writeBuf fun j hj => .inl ⟨j, hj, rfl⟩
  · have hi0 := h.tables.scanning i hp
    unfold Server.examine at hex
    cases hb : s.branch i with
    | accept =>
      obtain rfl : { s.accept a with phase := .scan (i + 1) } = s' := by simpa [hb] using hex
      cases a with
      | none => exact h.frame ht h.writeBuf fun j hj => .inl ⟨j, hj, rfl⟩
      | some fd =>
        by_cases hlimit : userLimit ≤ s.userCount
        · have hsame : s.accept (some fd) = s := if_pos hlimit
          rw [hsame] at ht ⊢
          exact h.frame ht h.writeBuf fun j hj => .inl ⟨j, hj, rfl⟩
        · have hjoin : s.accept (some fd) = s.join fd := if_neg hlimit
          rw [hjoin] at ht ⊢
          refine h.frame ht h.writeBuf fun j hj => ?_
          obtain ⟨h1, h2⟩ := hj
          rcases eq_or_ne j (s.userCount + 1) with rfl | hne
          · exact .inr (by simp [Server.join])
          · simp only [Server.join] at h2
            exact .inl ⟨j, ⟨h1, by omega⟩, by simp [Server.join, hne]⟩
    | error | idle =>
      obtain rfl : { s with phase := .scan (i + 1) } = s' := by simpa [hb] using hex
      exact h.frame ht h.writeBuf fun j hj => .inl ⟨j, hj, rfl⟩
    | departure =>
      have hin := h.tables.toRoster.inUse hi0 hi (.inl hb)
      obtain rfl : { s.depart i with phase := .scan i } = s' := by simpa [hb] using hex
      refine h.depart hin ht rfl rfl fun x => ?_
      simp only [Server.depart, Function.update_apply]
      split <;> exact h.writeBuf _
    | read =>
      have hin := h.tables.toRoster.inUse hi0 hi (.inr (.inl hb))
      obtain rfl : s.read r i = s' := by simpa [hb] using hex
      have hset : ∀ x fd buf, ((s.setBuf fd buf).users x).writeBuf = none := by
        intro x fd buf
        simp only [Server.setBuf, Function.update_apply]
        split <;> exact h.writeBuf _
      rcases read_cases r i s with ⟨rfl, h1⟩ | ⟨-, h1⟩ | ⟨msg, s1, rfl, h1, hn⟩ <;> rw [h1] at ht ⊢
      · refine h.depart hin ht rfl rfl fun x => ?_
        simp only [Server.depart, Function.update_apply]
        split <;> exact hset ..
      · exact h.frame ht (fun x => hset ..) fun j hj => .inl ⟨j, hj, rfl⟩
      · -- the only client is the one that sent it
        have hno : ∀ k, ¬ Notifies (s.receive (s.fds i).fd msg) (s.fds i).fd s.userCount.toNat 1 k := by
          rintro k ⟨h1, h2, h3⟩
          have hone := halone i (by simp [Server.current, hp, hi]) hb
          obtain ⟨h4, h5⟩ := hin
          obtain rfl : k = i := by omega
          exact h3 rfl
        obtain ⟨hev, hwb⟩ := hn.alone hno
        refine h.frame ht (fun x => (hwb x).trans (hset ..)) fun j hj => .inl ⟨j, ?_, hev j⟩
        exact hn.inUse.mp hj
    | write =>
      -- nobody is polled for writing
      have hin := h.tables.toRoster.inUse hi0 hi (.inr (.inr hb))
      have := h.tables.registered pollout (by decide) i hi0 (by omega) (branch_write hb)
      rw [(h.events i hin).2] at this
      cases this

/-- A client that is told about a message goes on being polled for reading. -/
theorem Calm.step_message (h : Calm s) (hloud : ¬ Alone s e) (hstep : PollChat.step s e = some s') :
    ∃ k, InUse s' k ∧ ¬ Interest s' k := by
  rcases step_cases hstep with
    ⟨r, rfl, -, rfl⟩ | ⟨a, r, i, rfl, hp, hi, rfl⟩ | ⟨a, r, i, rfl, hp, hi, hex⟩
  · exact absurd trivial hloud
  · cases r with
    | data msg => exact absurd (by simp [Alone, Server.current, hp, hi]) hloud
    | eof | again | error => exact absurd trivial hloud
  · cases r with
    | eof | again | error => exact absurd trivial hloud
    | data msg =>
      obtain ⟨hb, hcount⟩ : s.branch i = .read ∧ 1 < s.userCount := by
        simpa [Alone, Server.current, hp, hi] using hloud
      obtain ⟨h1, h2⟩ := h.tables.toRoster.inUse (h.tables.scanning i hp) hi (.inr (.inl hb))
      obtain ⟨k, hk, hki⟩ : ∃ k, InUse s k ∧ k ≠ i := by
        rcases eq_or_ne i 1 with rfl | hne
        · exact ⟨2, ⟨by omega, by omega⟩, by omega⟩
        · exact ⟨1, ⟨by omega, by omega⟩, hne.symm⟩
      have hfd : (s.fds k).fd ≠ (s.fds i).fd := fun hfd => hki (h.tables.fd_inj hk ⟨h1, h2⟩ hfd)
      obtain rfl : s.read (.data msg) i = s' := by simpa [Server.examine, hb] using hex
      rcases read_cases (.data msg) i s with ⟨hr, -⟩ | ⟨hr, -⟩ | ⟨msg', s1, -, hs, hn⟩
      · cases hr
      · rcases hr with hr | hr <;> cases hr
      · have hnot : Notifies (s.receive (s.fds i).fd msg') (s.fds i).fd s.userCount.toNat 1 k := by
          obtain ⟨h3, h4⟩ := hk
          exact ⟨h3, by omega, hfd⟩
        rw [hs]
        refine ⟨k, hn.inUse.mpr hk, fun hint => ?_⟩
        have hin : has (s1.fds k).events pollin = true := hn.has_events k (h.events k hk).1
        have hwb : (s1.users (s1.fds k).fd).writeBuf = some (s.fds i).fd := by
          rw [hn.fd k]
          exact hn.writeBuf k hnot
        have := hint.2.mp hin
        rw [hwb] at this
        cases this

/-- As long as messages are only received while one client is connected, all clients are
polled for what they are to be polled for; the first message to another client ends that. -/
theorem interest_kept (h : Reach Blank (fun s e => Legal s e ∧ Alone s e) step s) :
    (∀ j, InUse s j → Interest s j) ∧
      ∀ e s', Legal s e → step s e = some s' → ((∀ j, InUse s' j → Interest s' j) ↔ Alone s e) := by
  have hs : Calm s := h.invariant (fun _ => calm_init) fun _ _ _ h he hstep => h.step he.1 he.2 hstep
  refine ⟨fun j hj => hs.interest hj, fun e s' hok hstep => ⟨fun hint => ?_, fun halone j hj => ?_⟩⟩
  · by_contra hloud
    obtain ⟨k, hk, hno⟩ := hs.step_message hloud hstep
    exact hno (hint k hk)
  · exact (hs.step hok halone hstep).interest hj

/-- `poll` for the listening socket, a client that joins, and the rest of the round. -/
def joinRound (fd : ℤ) (others : ℕ) : List Event :=
  .poll (fun i => if i = 0 then pollin else 0) :: .examine (some fd) .again ::
    List.replicate (others + 2) (.examine none .again)

/-- A round in which entry 1 is readable, and what it sends. -/
def messageRound (msg : List UInt8) (others : ℕ) : List Event :=
  .poll (fun i => if i = 1 then pollin else 0) :: .examine none .again :: .examine none (.data msg) ::
    List.replicate (others + 1) (.examine none .again)

theorem blank_start : Blank start := ⟨init_start, fun _ => rfl⟩

/-- A client alone sends a message, and another one joins. -/
theorem interest_kept_two : ∃ s, InUse s 1 ∧ Interest s 1 ∧ InUse s 2 ∧ Interest s 2 := by
  obtain ⟨s, hs, hc⟩ : ∃ s : Server, play (fun s e => Legal s e ∧ Alone s e) step start
      (joinRound 5 0 ++ messageRound [104] 0 ++ joinRound 6 1) = some s ∧ s.userCount = 2 :=
    ⟨_, rfl, by decide⟩
  have h := (interest_kept (reach_of_play blank_start hs)).1
  have h1 : InUse s 1 := ⟨by omega, by omega⟩
  have h2 : InUse s 2 := ⟨by omega, by omega⟩
  exact ⟨s, h1, h 1 h1, h2, h 2 h2⟩

/-- The first of two clients sends a message; at the next `poll` the second one has
something to write, and is polled for reading as well. -/
theorem interest_not_kept : ∃ s : Server, Reach Blank Legal step s ∧ s.phase = .poll ∧ InUse s 2 ∧
    (s.users (s.fds 2).fd).writeBuf = some 5 ∧ has (s.fds 2).events pollin = true ∧ ¬ Interest s 2 := by
  obtain ⟨s, hs, hp, hc, hw, he⟩ : ∃ s : Server, play Legal step start
      (joinRound 5 0 ++ joinRound 6 1 ++ messageRound [104] 1) = some s ∧ s.phase = .poll ∧
      s.userCount = 2 ∧ (s.users (s.fds 2).fd).writeBuf = some 5 ∧
      has (s.fds 2).events pollin = true := ⟨_, rfl, by decide⟩
  refine ⟨s, reach_of_play blank_start hs, hp, ⟨by omega, by omega⟩, hw, he, fun hint => ?_⟩
  have := hint.2.mp he
  rw [hw] at this
  cases this

end LinuxServer.PollChat
