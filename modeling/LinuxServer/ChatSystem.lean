import LinuxServer.ChatClient
import LinuxServer.PollChatOrder

/-!
# The chat of `9-6_communication_server.cpp` and `9-6_communication_client.cpp`

The server and any number of clients take steps in any order.  What a client has sent waits in
`up` until the server receives it, in any pieces, or closes the connection, and is then lost; what
the server sends reaches the client at once.  The client `c` is the one whose connection is the
`c`-th that the server takes on; clients that it refuses are left out.
-/

namespace LinuxServer.ChatSystem
open PollChat (Record)

structure Chat where
  server : PollChat.Server
  client : ℕ → ChatClient.Client
  up : ℕ → List UInt8

inductive Input
  | client (c : ℕ) (i : ChatClient.Input)
  | server (e : PollChat.Event)

/-- The server has taken on the connection `c`, and closed it. -/
def Closed (s : PollChat.Server) (c : ℕ) : Prop := c < s.joined ∧ ∀ p ∈ s.entries, s.conn p.fd ≠ c

instance (s : PollChat.Server) (c : ℕ) : Decidable (Closed s c) := inferInstanceAs (Decidable (_ ∧ _))

/-- `close` discards what was not received, and nothing comes through afterwards. -/
def Chat.discard (s : Chat) : Chat := { s with up := fun c => if Closed s.server c then [] else s.up c }

/-- What a receipt of the server, or a string it sends, does at the other end. -/
def Chat.carry (s : Chat) : Record → Chat
  | .received c msg => { s with up := Function.update s.up c ((s.up c).drop msg.length) }
  | .sent c msg => { s with
      client := Function.update s.client c { s.client c with inbox := (s.client c).inbox ++ msg } }
  | .writable _ => s

def turn (s : Chat) : Input → Option Chat
  | .client c i => (ChatClient.step (s.client c) i).map fun t => Chat.discard { s with
      client := Function.update s.client c t
      up := Function.update s.up c (s.up c ++ t.sent.drop (s.client c).sent.length) }
  | .server e => (PollChat.step s.server e).map fun t =>
      ((t.log.drop s.server.log.length).foldl Chat.carry { s with server := t }).discard

/-- Nobody has been connected, and nobody has typed anything. -/
def Init (s : Chat) : Prop :=
  (PollChat.Init s.server ∧ s.server.joined = 0) ∧ (∀ c, s.client c = ChatClient.start) ∧ ∀ c, s.up c = []

def start : Chat where
  server := PollChat.start
  client _ := ChatClient.start
  up _ := []

theorem init_start : Init start := ⟨⟨PollChat.init_start, rfl⟩, fun _ => rfl, fun _ => rfl⟩

/-- What a client is sent comes from the server, which hangs up on those that it has closed. -/
def ClientLegal (s : Chat) (c : ℕ) : ChatClient.Input → Prop
  | .message _ => False
  | .hangUp => Closed s.server c
  | i => ChatClient.Legal (s.client c) i

/-- `recv` returns data where it is called, and these come from the client. -/
def Received (s : Chat) : PollChat.RecvResult → Prop
  | .data msg => ∃ fd ∈ s.server.reading, msg <+: s.up (s.server.conn fd)
  | _ => True

def Legal (s : Chat) : Input → Prop
  | .client c i => ClientLegal s c i
  | .server (.poll revents) => PollChat.Legal s.server (.poll revents)
  | .server (.examine accepted received) =>
    PollChat.Legal s.server (.examine accepted received) ∧ Received s received

/-- No NUL is typed, and a client that leaves has the last entry, or nobody has to be sent its
message. -/
def Clean (s : Chat) : Input → Prop
  | .client _ (.type bytes) => 0 ∉ bytes
  | .server (.examine _ received) => ∀ i ∈ s.server.leaving received,
      i = s.server.userCount ∨ ¬ s.server.Pending (s.server.fds i).fd
  | _ => True

instance (s : Chat) (c : ℕ) : (i : ChatClient.Input) → Decidable (ClientLegal s c i)
  | .message _ => isFalse id
  | .hangUp => inferInstanceAs (Decidable (Closed _ _))
  | .type bytes => inferInstanceAs (Decidable (ChatClient.Legal (s.client c) (.type bytes)))
  | .endInput => inferInstanceAs (Decidable (ChatClient.Legal (s.client c) .endInput))
  | .poll a b d => inferInstanceAs (Decidable (ChatClient.Legal (s.client c) (.poll a b d)))
  | .recv => inferInstanceAs (Decidable (ChatClient.Legal (s.client c) .recv))
  | .fill n => inferInstanceAs (Decidable (ChatClient.Legal (s.client c) (.fill n)))
  | .drain n => inferInstanceAs (Decidable (ChatClient.Legal (s.client c) (.drain n)))

instance (s : Chat) : (r : PollChat.RecvResult) → Decidable (Received s r)
  | .data _ => inferInstanceAs (Decidable (∃ fd ∈ _, _))
  | .eof => isTrue trivial
  | .again => isTrue trivial
  | .error => isTrue trivial

instance (s : Chat) : (i : Input) → Decidable (Legal s i)
  | .client c i => inferInstanceAs (Decidable (ClientLegal s c i))
  | .server (.poll _) => isTrue trivial
  | .server (.examine _ _) => inferInstanceAs (Decidable (_ ∧ _))

instance (s : Chat) : (i : Input) → Decidable (Clean s i)
  | .client _ (.type _) => inferInstanceAs (Decidable (0 ∉ _))
  | .client _ (.message _) => isTrue trivial
  | .client _ .hangUp => isTrue trivial
  | .client _ .endInput => isTrue trivial
  | .client _ (.poll _ _ _) => isTrue trivial
  | .client _ .recv => isTrue trivial
  | .client _ (.fill _) => isTrue trivial
  | .client _ (.drain _) => isTrue trivial
  | .server (.poll _) => isTrue trivial
  | .server (.examine _ _) => inferInstanceAs (Decidable (∀ i ∈ _, _))

variable {s s' : Chat} {c k : ℕ} {i : ChatClient.Input} {e : PollChat.Event} {msg : List UInt8}

/-! ## What a step of the server receives and sends -/

/-- What a step adds to the log of the server. -/
inductive Logged (s : PollChat.Server) (e : PollChat.Event) : List Record → Prop
  | nothing : Logged s e []
  | received (accepted : Option ℤ) (fd : ℤ) (msg : List UInt8) (he : e = .examine accepted (.data msg))
      (hfd : fd ∈ s.reading) : Logged s e [.received (s.conn fd) msg]
  | writable (c : ℕ) : Logged s e [.writable c]
  | sent (c : ℕ) (msg : List UInt8) : Logged s e [.writable c, .sent c msg]

theorem step_logged {s s' : PollChat.Server} (h : PollChat.step s e = some s') :
    ∃ new, s'.log = s.log ++ new ∧ Logged s e new := by
  rcases PollChat.step_cases h with
    ⟨r, rfl, -, rfl⟩ | ⟨a, r, i, rfl, -, -, rfl⟩ | ⟨a, r, i, rfl, hp, hi, hex⟩
  · exact ⟨[], (List.append_nil _).symm, .nothing⟩
  · exact ⟨[], (List.append_nil _).symm, .nothing⟩
  · unfold PollChat.Server.examine at hex
    cases hb : s.branch i with
    | accept =>
      obtain rfl : { s.accept a with phase := .scan (i + 1) } = s' := by simpa [hb] using hex
      have hlog : (s.accept a).log = s.log := by
        cases a with
        | none => rfl
        | some fd =>
          simp only [PollChat.Server.accept]
          split <;> rfl
      exact ⟨[], hlog.trans (List.append_nil _).symm, .nothing⟩
    | error | idle =>
      obtain rfl : { s with phase := .scan (i + 1) } = s' := by simpa [hb] using hex
      exact ⟨[], (List.append_nil _).symm, .nothing⟩
    | departure =>
      obtain rfl : { s.depart i with phase := .scan i } = s' := by simpa [hb] using hex
      exact ⟨[], (List.append_nil _).symm, .nothing⟩
    | read =>
      obtain rfl : s.read r i = s' := by simpa [hb] using hex
      have hfd : (s.fds i).fd ∈ s.reading := by
        simp [PollChat.Server.reading, PollChat.Server.current, hp, hi, hb]
      rcases PollChat.read_cases r i s with ⟨-, h1⟩ | ⟨-, h1⟩ | ⟨msg, s1, rfl, h1, hn⟩ <;> rw [h1]
      · exact ⟨[], (List.append_nil _).symm, .nothing⟩
      · exact ⟨[], (List.append_nil _).symm, .nothing⟩
      · exact ⟨_, by rw [hn.frame]; rfl, .received a _ msg rfl hfd⟩
    | write =>
      have hw : s.write i = some s' := by simpa [hb] using hex
      rcases PollChat.write_cases hw with ⟨-, rfl⟩ | ⟨x, msg, -, -, rfl⟩
      · exact ⟨_, rfl, .writable _⟩
      · exact ⟨_, List.append_assoc _ _ _, .sent _ msg⟩

/-! ## Closed connections -/

/-- What is closed stays closed. -/
theorem Closed.step {s s' : PollChat.Server} (hc : Closed s c) (h : PollChat.Tables s)
    (hok : PollChat.Legal s e) (hs : PollChat.step s e = some s') : Closed s' c := by
  obtain ⟨hlt, hno⟩ := hc
  have hconn := PollChat.connected_step h hok hs
  refine ⟨Nat.lt_of_lt_of_le hlt hconn.joined, fun p hp => ?_⟩
  obtain ⟨j, hj, rfl⟩ := PollChat.mem_entries.mp hp
  rcases hconn.conn j hj with hnew | ⟨k, hk, hold⟩
  · omega
  · rw [hold]
    exact hno _ (PollChat.mem_entries.mpr ⟨k, hk, rfl⟩)

/-- The connection that is read from is open. -/
theorem not_closed_reading {s : PollChat.Server} (h : PollChat.Tables s) {fd : ℤ} (hfd : fd ∈ s.reading) :
    ¬ Closed s (s.conn fd) := by
  unfold PollChat.Server.reading at hfd
  cases hcur : s.current with
  | none => simp [hcur] at hfd
  | some i =>
    obtain ⟨hb, rfl⟩ : s.branch i = .read ∧ (s.fds i).fd = fd := by simpa [hcur] using hfd
    obtain ⟨hp, hi⟩ := PollChat.current_eq hcur
    have hin := h.toRoster.inUse (h.scanning i hp) hi (.inr (.inl hb))
    exact fun hc => hc.2 _ (PollChat.mem_entries.mpr ⟨i, hin, rfl⟩) rfl

/-! ## The invariant -/

/-- The messages received from a connection. -/
def gotFrom (c : ℕ) (log : List Record) : List (List UInt8) :=
  log.filterMap fun
    | .received k msg => if k = c then some msg else none
    | _ => none

/-- Those of the messages that come from `k`. -/
def saidBy (k : ℕ) (heard : List (ℕ × List UInt8)) : List (List UInt8) :=
  (heard.filter fun p => p.1 = k).map Prod.snd

theorem ne_of_mem_heardBy {log : List Record} {p : ℕ × List UInt8} (hp : p ∈ PollChat.heardBy c log) :
    p.1 ≠ c := by
  unfold PollChat.heardBy at hp
  obtain ⟨r, -, h⟩ := List.mem_filterMap.mp hp
  cases r with
  | received k m =>
    by_cases hk : k = c
    · simp [hk] at h
    · obtain rfl : (k, m) = p := by simpa [hk] using h
      exact hk
  | writable | sent => cases h

theorem saidBy_heardBy (k c : ℕ) (log : List Record) :
    (saidBy k (PollChat.heardBy c log)).Sublist (gotFrom k log) := by
  induction log with
  | nil => exact List.Sublist.refl _
  | cons r log ih =>
    cases r with
    | received d m =>
      have hgot : (gotFrom k log).Sublist (gotFrom k (.received d m :: log)) :=
        (List.sublist_cons_self _ _).filterMap _
      by_cases hc : d = c
      · have hheard : PollChat.heardBy c (.received d m :: log) = PollChat.heardBy c log := by
          simp [PollChat.heardBy, hc]
        rw [hheard]
        exact ih.trans hgot
      · have hheard : PollChat.heardBy c (.received d m :: log) = (d, m) :: PollChat.heardBy c log := by
          simp [PollChat.heardBy, hc]
        rw [hheard]
        by_cases hk : d = k
        · subst hk
          simpa [saidBy, gotFrom] using ih
        · simpa [saidBy, hk] using ih.trans hgot
    | writable | sent => exact ih

/-- All that was typed at a client. -/
def typedAt (s : Chat) (c : ℕ) : List UInt8 :=
  (s.client c).sent ++ (s.client c).pipe ++ (s.client c).stdin

/-- All that a client is to print, or has printed. -/
def seenAt (s : Chat) (c : ℕ) : List UInt8 := (s.client c).text ++ (s.client c).inbox

/-- What a client has sent was received or is on its way, or was lost when it was closed. -/
structure Carried (s : Chat) : Prop where
  tables : PollChat.Tables s.server
  up : ∀ c, Closed s.server c → s.up c = []
  sent : ∀ c, ∃ lost : List UInt8, (lost ≠ [] → Closed s.server c) ∧
    (s.client c).sent = (gotFrom c s.server.log).flatten ++ lost ++ s.up c

/-- Moreover it has got what it was sent. -/
structure Kept (s : Chat) : Prop extends Carried s where
  turns : ∀ c, ∃ k, PollChat.InTurn c k s.server
  seen : ∀ c, seenAt s c = (PollChat.sentTo c s.server.log).flatten
  clean : ∀ c, 0 ∉ typedAt s c

/-- What the server received was typed. -/
theorem Carried.received (h : Carried s) (k : ℕ) : (gotFrom k s.server.log).flatten <+: typedAt s k := by
  obtain ⟨lost, -, hsent⟩ := h.sent k
  unfold typedAt
  rw [hsent]
  simp only [List.append_assoc]
  exact List.prefix_append _ _

/-- What a client was sent was received from others before. -/
theorem Kept.heard (h : Kept s) (c : ℕ) : ∃ heard : List (ℕ × List UInt8),
    seenAt s c = (heard.map Prod.snd).flatten ∧ heard.Sublist (PollChat.heardBy c s.server.log) := by
  obtain ⟨k, hk⟩ := h.turns c
  obtain ⟨heard, hheard, htold⟩ := List.sublist_map_iff.mp hk.sublist
  refine ⟨heard, ?_, hheard⟩
  rw [h.seen c, ← htold]
  exact List.flatten_filter_ne_nil.symm

theorem Kept.inbox (h : Kept s) (c : ℕ) : 0 ∉ (s.client c).inbox := by
  intro h0
  have hseen : 0 ∈ seenAt s c := List.mem_append_right _ h0
  obtain ⟨heard, htext, hheard⟩ := h.heard c
  rw [htext, List.mem_flatten] at hseen
  obtain ⟨msg, hmsg, h0⟩ := hseen
  obtain ⟨p, hp, rfl⟩ := List.mem_map.mp hmsg
  have hgot : p.2 ∈ gotFrom p.1 s.server.log := (saidBy_heardBy p.1 c _).subset
    (List.mem_map.mpr ⟨p, List.mem_filter.mpr ⟨hheard.subset hp, by simp⟩, rfl⟩)
  exact h.clean p.1 ((h.received p.1).subset (List.mem_flatten_of_mem hgot h0))

theorem carried_init (h : Init s) : Carried s := by
  obtain ⟨⟨hserver, -⟩, hclient, hup⟩ := h
  have hlog := hserver.2.2.2.2
  refine ⟨PollChat.tables_init hserver, fun c _ => hup c, fun c => ⟨[], by simp, ?_⟩⟩
  simp [hclient, hup, hlog, ChatClient.start, gotFrom]

theorem kept_init (h : Init s) : Kept s := by
  have hcarried := carried_init h
  obtain ⟨⟨hserver, -⟩, hclient, -⟩ := h
  have hlog := hserver.2.2.2.2
  refine ⟨hcarried, fun c => ⟨0, PollChat.inTurn_init hserver c⟩, fun c => ?_, fun c => ?_⟩
  · simp [seenAt, hclient, hlog, ChatClient.start, ChatClient.Client.text, PollChat.sentTo]
  · simp [typedAt, hclient, ChatClient.start]

/-! ## The steps of a client -/

/-- A client sends nothing that it has not in its pipe, and takes nothing back. -/
theorem sent_drop {u u' : ChatClient.Client} (h : ChatClient.Moved u i u') :
    u.sent ++ u'.sent.drop u.sent.length = u'.sent := by
  cases h <;> simp

/-- What leaves for a connection is lost once that is closed. -/
theorem exists_lost {s : PollChat.Server} {sent got up lost : List UInt8} (hlost : lost ≠ [] → Closed s c)
    (h : sent = got ++ lost ++ up) : ∃ lost : List UInt8, (lost ≠ [] → Closed s c) ∧
      sent = got ++ lost ++ if Closed s c then [] else up := by
  by_cases hc : Closed s c
  · refine ⟨lost ++ up, fun _ => hc, ?_⟩
    rw [if_pos hc, List.append_nil, ← List.append_assoc]
    exact h
  · exact ⟨lost, hlost, by rw [if_neg hc]; exact h⟩

theorem Carried.clientStep (h : Carried s) (hs : turn s (.client c i) = some s') : Carried s' := by
  simp only [turn, Option.map_eq_some_iff] at hs
  obtain ⟨u, hu, rfl⟩ := hs
  refine ⟨h.tables, fun d hd => if_pos hd, fun d => ?_⟩
  obtain ⟨lost, hlost, hsent⟩ := h.sent d
  refine exists_lost hlost ?_
  simp only [Chat.discard]
  by_cases hd : d = c
  · subst hd
    simp only [Function.update_self]
    calc u.sent
        = (s.client d).sent ++ u.sent.drop (s.client d).sent.length := (sent_drop (ChatClient.moved hu)).symm
      _ = (gotFrom d s.server.log).flatten ++ lost ++ s.up d ++ u.sent.drop (s.client d).sent.length :=
          congrArg (· ++ _) hsent
      _ = _ := List.append_assoc _ _ _
  · simp only [Function.update_of_ne hd]
    exact hsent

theorem client_typed (hs : turn s (.client c i) = some s') :
    typedAt s' c = typedAt s c ++ ChatClient.typed (s.client c) i ∧
      ∀ d, d ≠ c → s'.client d = s.client d := by
  simp only [turn, Option.map_eq_some_iff] at hs
  obtain ⟨u, hu, rfl⟩ := hs
  refine ⟨?_, fun d hd => Function.update_of_ne hd _ _⟩
  simp only [typedAt, Chat.discard, Function.update_self]
  exact (ChatClient.moved hu).typed

theorem Kept.clientStep (h : Kept s) (hok : Legal s (.client c i)) (hclean : Clean s (.client c i))
    (hs : turn s (.client c i) = some s') : Kept s' := by
  have hcarried := h.toCarried.clientStep hs
  obtain ⟨htyped, hothers⟩ := client_typed hs
  simp only [turn, Option.map_eq_some_iff] at hs
  obtain ⟨u, hu, rfl⟩ := hs
  refine ⟨hcarried, h.turns, fun d => ?_, fun d => ?_⟩
  · by_cases hd : d = c
    · subst hd
      have hdelivered : ChatClient.delivered (s.client d) i = [] := by
        cases i with
        | message bytes => exact hok.elim
        | _ => rfl
      have hseen := h.seen d
      have htext := (ChatClient.moved hu).text (h.inbox d)
      rw [hdelivered, List.append_nil] at htext
      simp only [seenAt, Chat.discard, Function.update_self] at hseen ⊢
      exact htext.trans hseen
    · rw [seenAt, hothers d hd]
      exact h.seen d
  · by_cases hd : d = c
    · subst hd
      have h0 : 0 ∉ ChatClient.typed (s.client d) i := by
        cases i with
        | type bytes => exact hclean
        | _ => simp [ChatClient.typed]
      rw [htyped, List.mem_append, not_or]
      exact ⟨h.clean d, h0⟩
    · rw [typedAt, hothers d hd]
      exact h.clean d

/-! ## The steps of the server -/

/-- What is on its way to the server was typed. -/
theorem Kept.way (h : Kept s) (c : ℕ) : 0 ∉ s.up c := by
  intro h0
  apply h.clean c
  obtain ⟨lost, -, hsent⟩ := h.sent c
  unfold typedAt
  rw [hsent]
  simp [h0]

theorem Kept.harmless (h : Kept s) (hok : Legal s (.server e)) (hclean : Clean s (.server e)) :
    PollChat.Harmless s.server e := by
  cases e with
  | poll revents => trivial
  | examine accepted received =>
    refine ⟨hclean, fun _ => ?_⟩
    cases received with
    | data msg =>
      obtain ⟨fd, -, hmsg⟩ := hok.2
      exact .inl fun h0 => h.way _ (hmsg.subset h0)
    | eof | again | error => trivial

theorem Legal.server (hok : Legal s (.server e)) : PollChat.Legal s.server e := by
  cases e with
  | poll revents => exact hok
  | examine accepted received => exact hok.1

/-- What the server adds to its log, and what that does at the other ends. -/
structure Served (s s' : Chat) (e : PollChat.Event) (new : List Record) : Prop where
  step : PollChat.step s.server e = some s'.server
  logged : Logged s.server e new
  got : ∀ c, gotFrom c s'.server.log = gotFrom c s.server.log ++ gotFrom c new
  told : ∀ c, PollChat.sentTo c s'.server.log = PollChat.sentTo c s.server.log ++ PollChat.sentTo c new
  up : ∀ c, s'.up c = if Closed s'.server c then [] else (s.up c).drop (gotFrom c new).flatten.length
  client : ∀ c, s'.client c =
    { s.client c with inbox := (s.client c).inbox ++ (PollChat.sentTo c new).flatten }

theorem served (hs : turn s (.server e) = some s') : ∃ new, Served s s' e new := by
  simp only [turn, Option.map_eq_some_iff] at hs
  obtain ⟨t, ht, rfl⟩ := hs
  obtain ⟨new, hlog, hnew⟩ := step_logged ht
  rw [hlog, List.drop_left]
  have hserver : (new.foldl Chat.carry { s with server := t }).server = t := by cases hnew <;> rfl
  refine ⟨new, by rw [Chat.discard, hserver]; exact ht, hnew, fun c => ?_, fun c => ?_, fun c => ?_,
    fun c => ?_⟩
  · rw [Chat.discard, hserver, hlog]
    exact List.filterMap_append
  · rw [Chat.discard, hserver, hlog]
    exact List.filterMap_append
  · simp only [Chat.discard, hserver]
    cases hnew with
    | nothing | writable | sent => rfl
    | received accepted fd msg =>
      by_cases hc : c = s.server.conn fd
      · simp [Chat.carry, gotFrom, hc]
      · simp [Chat.carry, gotFrom, hc, Ne.symm hc]
  · cases hnew with
    | nothing | writable | received => simp [Chat.discard, Chat.carry, PollChat.sentTo]
    | sent d msg =>
      by_cases hc : c = d
      · subst hc
        simp [Chat.discard, Chat.carry, PollChat.sentTo]
      · simp [Chat.discard, Chat.carry, PollChat.sentTo, hc, Ne.symm hc]

/-- What is received has been on its way, on a connection that is open. -/
theorem Carried.split (h : Carried s) (hok : Legal s (.server e)) {new : List Record}
    (hnew : Logged s.server e new) (c : ℕ) :
    s.up c = (gotFrom c new).flatten ++ (s.up c).drop (gotFrom c new).flatten.length ∧
      (Closed s.server c → gotFrom c new = []) := by
  cases hnew with
  | nothing | writable | sent => simp [gotFrom]
  | received accepted fd msg he hfd =>
    subst he
    obtain ⟨fd', hfd', hmsg⟩ := hok.2
    obtain rfl := Option.some.inj (hfd.symm.trans hfd')
    by_cases hc : c = s.server.conn fd
    · subst hc
      obtain ⟨rest, hrest⟩ := hmsg
      refine ⟨?_, fun hclosed => absurd hclosed (not_closed_reading h.tables hfd)⟩
      simp [gotFrom, ← hrest]
    · simp [gotFrom, Ne.symm hc]

theorem Carried.serverStep (h : Carried s) (hok : Legal s (.server e))
    (hs : turn s (.server e) = some s') : Carried s' := by
  obtain ⟨new, hserved⟩ := served hs
  have htables := PollChat.tables_step h.tables hok.server hserved.step
  refine ⟨htables, fun c hc => by rw [hserved.up, if_pos hc], fun c => ?_⟩
  obtain ⟨lost, hlost, hsent⟩ := h.sent c
  obtain ⟨hup, hnone⟩ := h.split hok hserved.logged c
  rw [hserved.up, hserved.client, hserved.got, List.flatten_append]
  have hstill : lost ≠ [] → Closed s'.server c :=
    fun hne => (hlost hne).step h.tables hok.server hserved.step
  refine exists_lost hstill ?_
  by_cases hne : lost = []
  · subst hne
    rw [List.append_nil] at hsent ⊢
    rw [List.append_assoc, ← hup]
    exact hsent
  · -- nothing comes through after something was lost
    rw [hnone (hlost hne)]
    simpa using hsent

theorem Kept.serverStep (h : Kept s) (hok : Legal s (.server e)) (hclean : Clean s (.server e))
    (hs : turn s (.server e) = some s') : Kept s' := by
  have hcarried := h.toCarried.serverStep hok hs
  obtain ⟨new, hserved⟩ := served hs
  refine ⟨hcarried, fun c => ?_, fun c => ?_, fun c => ?_⟩
  · obtain ⟨k, hk⟩ := h.turns c
    exact PollChat.inTurn_step hk h.tables hok.server (h.harmless hok hclean) hserved.step
  · rw [seenAt, hserved.client, hserved.told, List.flatten_append, ← h.seen c]
    exact (List.append_assoc _ _ _).symm
  · rw [typedAt, hserved.client]
    exact h.clean c

/-! ## From one user to another -/

/-- Two clients join, and what is typed at the first is printed by the second. -/
def chatEvents : List Input :=
  PollChat.joins.map .server ++ [.client 0 (.type [104, 105]), .client 0 (.poll false false true),
    .client 0 (.fill 2), .client 0 (.drain 2)] ++
    ([.poll (PollChat.reports [(1, PollChat.pollin), (2, PollChat.pollout)]), .examine none .again,
      .examine none (.data [104, 105]), .examine none .again, .examine none .again,
      .poll (PollChat.reports [(2, PollChat.pollout)]), .examine none .again, .examine none .again,
      .examine none .again] : List PollChat.Event).map .server ++
    [.client 1 (.poll false true false), .client 1 .recv]

/-- What is typed at a client. -/
def typing (c : ℕ) (_ : Chat) : Input → List UInt8
  | .client d (.type bytes) => if d = c then bytes else []
  | _ => []

theorem turn_typed {i : Input} (h : turn s i = some s') : typedAt s' c = typedAt s c ++ typing c s i := by
  cases i with
  | client d i =>
    obtain ⟨htyped, hothers⟩ := client_typed h
    by_cases hc : c = d
    · subst hc
      rw [htyped]
      cases i <;> simp [typing, ChatClient.typed]
    · have hno : typing c s (.client d i) = [] := by
        cases i <;> simp [typing, Ne.symm hc]
      rw [hno, List.append_nil, typedAt, hothers c hc, typedAt]
  | server e =>
    obtain ⟨new, hserved⟩ := served h
    rw [typedAt, hserved.client]
    exact (List.append_nil _).symm

/-- In every run the messages that the server received from a client, what is on its way there and
what the client has still to send are all that was typed, in order and once each, until the
server closes the client: what is then lost was typed behind all that is ever received. -/
theorem received_as_typed {s0 : Chat} {es : List Input} (h0 : Init s0) (hrun : Exec Legal turn s0 es s)
    (c : ℕ) : ∃ lost : List UInt8, (lost ≠ [] → Closed s.server c) ∧ (Closed s.server c → s.up c = []) ∧
      (gotFrom c s.server.log).flatten ++ lost ++ s.up c ++ (s.client c).pipe ++ (s.client c).stdin =
        brought turn (typing c) s0 es := by
  have hcarried : Carried s := hrun.invariant (fun s i s' hi hok hs => by
    cases i with
    | client d i => exact hi.clientStep hs
    | server e => exact hi.serverStep hok hs) (carried_init h0)
  obtain ⟨lost, hlost, hsent⟩ := hcarried.sent c
  refine ⟨lost, hlost, hcarried.up c, ?_⟩
  have htyped : typedAt s c = typedAt s0 c ++ brought turn (typing c) s0 es :=
    hrun.brings (fun s => typedAt s c) (I := fun _ => True) (fun _ _ _ _ _ _ => trivial)
      (fun _ _ _ _ _ hs => turn_typed hs) trivial
  have hnone : typedAt s0 c = [] := by simp [typedAt, h0.2.1 c, ChatClient.start]
  rw [← hsent]
  exact htyped.trans (by rw [hnone, List.nil_append])

/-- The first client leaves with a byte that the server has not received. -/
theorem received_as_typed_two : ∃ s : Chat, s.up 0 = [] ∧ gotFrom 0 s.server.log = [[104, 105]] ∧
    ∃ lost : List UInt8, (lost ≠ [] → Closed s.server 0) ∧ (Closed s.server 0 → s.up 0 = []) ∧
      (gotFrom 0 s.server.log).flatten ++ lost ++ s.up 0 ++ (s.client 0).pipe ++ (s.client 0).stdin =
        [104, 105, 33] := by
  let es := chatEvents ++ [.client 0 (.type [33]), .client 0 (.poll false false true), .client 0 (.fill 1),
    .client 0 (.drain 1), .server (.examine none .again),
    .server (.poll (PollChat.reports [(1, PollChat.pollrdhup)])), .server (.examine none .again),
    .server (.examine none .again)]
  let s := (play Legal turn start es).get (by decide)
  have hrun : Exec Legal turn start es s := exec_of_play (Option.some_get _).symm
  exact ⟨s, by decide, by decide, received_as_typed init_start hrun 0⟩

end LinuxServer.ChatSystem
