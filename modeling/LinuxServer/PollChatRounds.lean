import LinuxServer.PollChatRoster
import LinuxServer.Segment
import Mathlib.Data.Finset.Basic

/-!
# A round of the chat server

The loop over `fds` removes and appends entries while it runs.  An observer writes down
the open connections, as the calls of `accept` and `close` have them, what `poll` left in
the entries, what was appended since, and what the loop has examined.
-/

namespace LinuxServer.PollChat

/-- What an iteration looks at: a descriptor and what `poll` reported for it. -/
def Server.pair (s : Server) (i : ℤ) : ℤ × Flags := ((s.fds i).fd, (s.fds i).revents)

/-- The descriptor that the iteration for entry `i` accepts and keeps. -/
def Server.opens (accepted : Option ℤ) (i : ℤ) (s : Server) : Option ℤ :=
  if s.branch i = .accept ∧ s.userCount < userLimit then accepted else none

/-- The descriptor on which it calls `close`, except for a client that is refused. -/
def Server.closes (received : RecvResult) (i : ℤ) (s : Server) : Option ℤ :=
  match s.branch i, received with
  | .departure, _ => some (s.fds i).fd
  | .read, .error => some (s.fds i).fd
  | _, _ => none

structure Watched where
  server : Server
  live : Finset ℤ
  present : List (ℤ × Flags)
  arrived : List (ℤ × Flags)
  seen : List (ℤ × Flags)

namespace Watched

def step (w : Watched) (e : Event) : Option Watched := do
  let s ← PollChat.step w.server e
  match e, w.server.current with
  | .poll _, _ =>
    some { w with
      server := s
      present := segment s.pair 0 (s.userCount + 1).toNat
      arrived := []
      seen := [] }
  | .examine accepted received, some i =>
    some {
      server := s
      live := (w.live ∪ (w.server.opens accepted i).toFinset) \ (w.server.closes received i).toFinset
      present := w.present
      arrived := w.arrived ++ ((w.server.opens accepted i).map fun fd => (fd, 0)).toList
      seen := w.seen ++ [w.server.pair i] }
  | .examine _ _, none => some { w with server := s }

def Init (w : Watched) : Prop :=
  PollChat.Init w.server ∧ w.live = ∅ ∧ w.present = [] ∧ w.arrived = [] ∧ w.seen = []

/-- `accept` returns -1 or a descriptor that is not open and has a slot in `users`. -/
def Legal (w : Watched) : Event → Prop
  | .poll _ => True
  | .examine accepted received =>
    (∀ fd ∈ accepted, 0 ≤ fd ∧ fd < fdLimit ∧ fd ≠ w.server.sockfd ∧ fd ∉ w.live) ∧ received.Legal

instance (w : Watched) : (e : Event) → Decidable (Legal w e)
  | .poll _ => isTrue trivial
  | .examine _ _ => inferInstanceAs (Decidable (_ ∧ _))

end Watched

/-- What the loop has still to examine. -/
def Server.pending (s : Server) : List (ℤ × Flags) :=
  match s.phase with
  | .poll => []
  | .scan i => segment s.pair i (s.userCount + 1 - i).toNat

/-- The open connections are the entries in use, and what was examined and what is still
to be examined are what `poll` and `accept` put there. -/
structure Rounds (w : Watched) : Prop where
  tables : Tables w.server
  live : ∀ fd, fd ∈ w.live ↔ ∃ j, InUse w.server j ∧ (w.server.fds j).fd = fd
  perm : (w.seen ++ w.server.pending).Perm (w.present ++ w.arrived)
  nodup : ((w.present ++ w.arrived).map Prod.fst).Nodup
  first : w.server.phase = .scan 0 → w.seen = []

variable {s s' : Server} {w w' : Watched} {i j : ℤ} {accepted : Option ℤ} {received : RecvResult}

/-- What a step of the observed server can be. -/
theorem Watched.step_cases {e : Event} (h : Watched.step w e = some w') :
    (∃ revents, e = .poll revents ∧ w.server.phase = .poll ∧ w' = { w with
      server := w.server.poll revents
      present := segment (w.server.poll revents).pair 0 (w.server.userCount + 1).toNat
      arrived := []
      seen := [] }) ∨
    (∃ accepted received i, e = .examine accepted received ∧ w.server.phase = .scan i ∧
      ¬ i < w.server.userCount + 1 ∧ w' = { w with server := { w.server with phase := .poll } }) ∨
    ∃ accepted received i s, e = .examine accepted received ∧ w.server.phase = .scan i ∧
      i < w.server.userCount + 1 ∧ w.server.examine accepted received i = some s ∧ w' = {
        server := s
        live := (w.live ∪ (w.server.opens accepted i).toFinset) \ (w.server.closes received i).toFinset
        present := w.present
        arrived := w.arrived ++ ((w.server.opens accepted i).map fun fd => (fd, 0)).toList
        seen := w.seen ++ [w.server.pair i] } := by
  obtain ⟨s, hs, hw⟩ := Option.bind_eq_some_iff.mp h
  rcases PollChat.step_cases hs with
    ⟨r, rfl, hp, rfl⟩ | ⟨a, r, i, rfl, hp, hi, rfl⟩ | ⟨a, r, i, rfl, hp, hi, hex⟩
  · exact .inl ⟨r, rfl, hp, (Option.some.inj hw).symm⟩
  · refine .inr (.inl ⟨a, r, i, rfl, hp, hi, ?_⟩)
    simpa [Server.current, hp, hi] using hw.symm
  · refine .inr (.inr ⟨a, r, i, s, rfl, hp, hi, hex, ?_⟩)
    simpa [Server.current, hp, hi] using hw.symm

/-- What an iteration does to the entries: it leaves them alone, appends one, or takes out
its own. -/
theorem examine_shape (h : Roster s) (hi0 : 0 ≤ i) (hi : i < s.userCount + 1)
    (hex : s.examine accepted received i = some s') :
    (s.opens accepted i = none ∧ s.closes received i = none ∧ s'.phase = .scan (i + 1) ∧
      s'.userCount = s.userCount ∧ s'.pair = s.pair) ∨
    (∃ fd, accepted = some fd ∧ i = 0 ∧ s.opens accepted i = some fd ∧ s.closes received i = none ∧
      s'.phase = .scan (i + 1) ∧ s'.userCount = s.userCount + 1 ∧
      s'.pair = Function.update s.pair (s.userCount + 1) (fd, 0)) ∨
    (InUse s i ∧ s.opens accepted i = none ∧ s.closes received i = some (s.fds i).fd ∧
      s'.phase = .scan i ∧ s'.userCount = s.userCount - 1 ∧
      s'.pair = Function.update s.pair i (s.pair s.userCount)) := by
  have hdepart : ∀ t : Server, t.fds = s.fds → t.userCount = s.userCount →
      (t.depart i).pair = Function.update s.pair i (s.pair s.userCount) := by
    intro t hf hc
    funext j
    rcases eq_or_ne j i with rfl | hj <;> simp [Server.pair, Server.depart, *]
  unfold Server.examine at hex
  cases hb : s.branch i with
  | accept =>
    obtain rfl : { s.accept accepted with phase := .scan (i + 1) } = s' := by simpa [hb] using hex
    have hclose : s.closes received i = none := by simp [Server.closes, hb]
    cases accepted with
    | none => exact .inl ⟨by simp [Server.opens], hclose, rfl, rfl, rfl⟩
    | some fd =>
      by_cases hlimit : userLimit ≤ s.userCount
      · have hsame : s.accept (some fd) = s := if_pos hlimit
        rw [hsame]
        exact .inl ⟨by simp [Server.opens, hlimit], hclose, rfl, rfl, rfl⟩
      · have h0 : i = 0 := by
          by_contra hne
          exact h.client i ⟨by omega, by omega⟩ (branch_accept hb)
        refine .inr (.inl ⟨fd, rfl, h0, by simp [Server.opens, hb]; omega, hclose, rfl, ?_, ?_⟩)
        · simp [Server.accept, hlimit, Server.join]
        · funext j
          rcases eq_or_ne j (s.userCount + 1) with rfl | hj <;>
            simp [Server.pair, Server.accept, Server.join, *]
  | error | idle =>
    obtain rfl : { s with phase := .scan (i + 1) } = s' := by simpa [hb] using hex
    exact .inl ⟨by simp [Server.opens, hb], by simp [Server.closes, hb], rfl, rfl, rfl⟩
  | departure =>
    obtain rfl : { s.depart i with phase := .scan i } = s' := by simpa [hb] using hex
    exact .inr (.inr ⟨h.inUse hi0 hi (.inl hb), by simp [Server.opens, hb],
      by simp [Server.closes, hb], rfl, rfl, hdepart s rfl rfl⟩)
  | read =>
    obtain rfl : s.read received i = s' := by simpa [hb] using hex
    have hopen : s.opens accepted i = none := by simp [Server.opens, hb]
    rcases read_cases received i s with ⟨rfl, h1⟩ | ⟨hr, h1⟩ | ⟨msg, s1, rfl, h1, hn⟩ <;> rw [h1]
    · exact .inr (.inr ⟨h.inUse hi0 hi (.inr (.inl hb)), hopen, by simp [Server.closes, hb], rfl, rfl,
        hdepart (s.setBuf _ _) rfl rfl⟩)
    · refine .inl ⟨hopen, ?_, rfl, rfl, rfl⟩
      rcases hr with rfl | rfl <;> simp [Server.closes, hb]
    · refine .inl ⟨hopen, by simp [Server.closes, hb], rfl, ?_, ?_⟩
      · rw [hn.frame]
        rfl
      · funext j
        exact Prod.ext (hn.fd j) (hn.revents j)
  | write =>
    have hw : s.write i = some s' := by simpa [hb] using hex
    refine .inl ⟨by simp [Server.opens, hb], by simp [Server.closes, hb], ?_⟩
    rcases write_cases hw with ⟨-, rfl⟩ | ⟨x, msg, -, -, rfl⟩
    · exact ⟨rfl, rfl, rfl⟩
    · refine ⟨rfl, rfl, ?_⟩
      funext j
      rcases eq_or_ne j i with rfl | hj <;> simp [Server.pair, *]

theorem pending_scan (hp : s.phase = .scan i) (hi : i < s.userCount + 1) :
    s.pending = s.pair i :: segment s.pair (i + 1) (s.userCount - i).toNat := by
  simp only [Server.pending, hp]
  rw [show (s.userCount + 1 - i).toNat = (s.userCount - i).toNat + 1 by omega, segment_succ]

/-- The first components of the entries 0, 1, ..., which are the open descriptors. -/
theorem Roster.pair_inj (h : Roster s) {k : ℤ} (hj : 0 ≤ j ∧ j ≤ s.userCount) (hk : 0 ≤ k ∧ k ≤ s.userCount)
    (hjk : (s.pair j).1 = (s.pair k).1) : j = k := by
  have h0 := h.listenFd
  by_cases hj1 : 1 ≤ j <;> by_cases hk1 : 1 ≤ k
  · exact h.fd_inj ⟨hj1, hj.2⟩ ⟨hk1, hk.2⟩ hjk
  · obtain rfl : k = 0 := by omega
    exact absurd (hjk.trans h0) (h.client j ⟨hj1, hj.2⟩)
  · obtain rfl : j = 0 := by omega
    exact absurd (hjk.symm.trans h0) (h.client k ⟨hk1, hk.2⟩)
  · omega

theorem Rounds.poll (h : Rounds w) (revents : ℤ → Flags) (ht : Tables (w.server.poll revents)) :
    Rounds { w with
      server := w.server.poll revents
      present := segment (w.server.poll revents).pair 0 (w.server.userCount + 1).toNat
      arrived := []
      seen := [] } := by
  refine ⟨ht, fun fd => ?_, ?_, ?_, fun _ => rfl⟩
  · rw [h.live]
    refine exists_congr fun j => and_congr .rfl ?_
    have : ((w.server.poll revents).fds j).fd = (w.server.fds j).fd := by
      simp only [Server.poll]
      split <;> rfl
    rw [this]
  · simp [Server.pending, Server.poll]
  · rw [List.append_nil, map_segment]
    exact segment_nodup fun j k h1 h2 h3 h4 hjk =>
      ht.toRoster.pair_inj ⟨h1, by simp only [Server.poll]; omega⟩ ⟨h3, by simp only [Server.poll]; omega⟩ hjk

/-- An iteration that leaves the entries alone. -/
theorem Rounds.advance (h : Rounds w) (ht : Tables s) (hp : w.server.phase = .scan i)
    (hi0 : 0 ≤ i) (hi : i < w.server.userCount + 1) (hp' : s.phase = .scan (i + 1))
    (hc : s.userCount = w.server.userCount) (hpair : s.pair = w.server.pair) :
    Rounds { w with server := s, seen := w.seen ++ [w.server.pair i] } := by
  refine ⟨ht, fun fd => ?_, ?_, h.nodup, fun h0 => ?_⟩
  · rw [h.live]
    refine exists_congr fun j => and_congr (by rw [InUse, InUse, hc]) ?_
    exact iff_of_eq (congrArg (fun f => (f j).1 = fd) hpair.symm)
  · have hperm := h.perm
    rw [pending_scan hp hi] at hperm
    simp only [Server.pending, hp', hc, hpair]
    rw [show w.server.userCount + 1 - (i + 1) = w.server.userCount - i by omega, List.append_assoc]
    exact hperm
  · have : i + 1 = 0 := by simpa [hp'] using h0
    omega

/-- The iteration that accepts a connection appends an entry, and an iteration for it. -/
theorem Rounds.join {fd : ℤ} (h : Rounds w) (ht : Tables s) (hp : w.server.phase = .scan 0)
    (hfd : fd ≠ w.server.sockfd) (hlive : fd ∉ w.live) (hp' : s.phase = .scan (0 + 1))
    (hc : s.userCount = w.server.userCount + 1)
    (hpair : s.pair = Function.update w.server.pair (w.server.userCount + 1) (fd, 0)) :
    Rounds { w with
      server := s
      live := w.live ∪ {fd}
      arrived := w.arrived ++ [(fd, 0)]
      seen := w.seen ++ [w.server.pair 0] } := by
  have hcount := h.tables.count
  have hpairs : ∀ j, j ≠ w.server.userCount + 1 → s.pair j = w.server.pair j :=
    fun j hj => by rw [hpair, Function.update_of_ne hj]
  have hnew : s.pair (w.server.userCount + 1) = (fd, 0) := by rw [hpair, Function.update_self]
  have hold : w.server.pending = w.server.pair 0 :: segment w.server.pair 1 w.server.userCount.toNat := by
    simpa using pending_scan hp (by omega)
  have hperm := h.perm
  refine ⟨ht, fun x => ?_, ?_, ?_, fun h0 => ?_⟩
  · simp only [Finset.mem_union, Finset.mem_singleton, h.live]
    constructor
    · rintro (⟨j, ⟨h1, h2⟩, rfl⟩ | rfl)
      · exact ⟨j, ⟨h1, by omega⟩, congrArg Prod.fst (hpairs j (by omega))⟩
      · exact ⟨w.server.userCount + 1, ⟨by omega, by omega⟩, congrArg Prod.fst hnew⟩
    · rintro ⟨j, ⟨h1, h2⟩, rfl⟩
      rcases eq_or_ne j (w.server.userCount + 1) with rfl | hj
      · exact .inr (congrArg Prod.fst hnew)
      · exact .inl ⟨j, ⟨h1, by omega⟩, (congrArg Prod.fst (hpairs j hj)).symm⟩
  · have hseg : segment s.pair 1 (w.server.userCount.toNat + 1) =
        segment w.server.pair 1 w.server.userCount.toNat ++ [(fd, 0)] := by
      rw [segment_snoc, ← hnew]
      refine congrArg₂ _ (segment_congr fun j h1 h2 => hpairs j (by omega)) ?_
      rw [show 1 + (w.server.userCount.toNat : ℤ) = w.server.userCount + 1 by omega]
    have hpend : s.pending = segment s.pair 1 (w.server.userCount.toNat + 1) := by
      simp only [Server.pending, hp', hc]
      rw [show (w.server.userCount + 1 + 1 - (0 + 1)).toNat = w.server.userCount.toNat + 1 by omega, zero_add]
    rw [hold] at hperm
    simpa [hpend, hseg] using hperm.append_right [(fd, 0)]
  · have hfresh : fd ∉ (w.present ++ w.arrived).map Prod.fst := by
      rw [← (hperm.map Prod.fst).mem_iff, h.first hp, List.nil_append, Server.pending, hp, map_segment,
        mem_segment]
      rintro ⟨j, h1, h2, hj⟩
      rcases eq_or_ne j 0 with rfl | hj0
      · exact hfd (hj.symm.trans h.tables.listenFd)
      · exact hlive ((h.live fd).mpr ⟨j, ⟨by omega, by omega⟩, hj⟩)
    rw [← List.append_assoc, List.map_append, List.nodup_append]
    refine ⟨h.nodup, by simp, fun x hx y hy => ?_⟩
    obtain rfl : y = fd := by simpa using hy
    rintro rfl
    exact hfresh hx
  · simp [hp'] at h0

/-- The iteration that takes its own entry out leaves the others to be examined. -/
theorem Rounds.depart (h : Rounds w) (ht : Tables s) (hp : w.server.phase = .scan i)
    (hi : InUse w.server i) (hp' : s.phase = .scan i) (hc : s.userCount = w.server.userCount - 1)
    (hpair : s.pair = Function.update w.server.pair i (w.server.pair w.server.userCount)) :
    Rounds { w with
      server := s
      live := w.live \ {(w.server.fds i).fd}
      seen := w.seen ++ [w.server.pair i] } := by
  obtain ⟨hi1, hin⟩ := hi
  refine ⟨ht, fun fd => ?_, ?_, h.nodup, fun h0 => ?_⟩
  · simp only [Finset.mem_sdiff, Finset.mem_singleton, h.live]
    have hself : (s.fds i).fd = (w.server.fds w.server.userCount).fd :=
      congrArg Prod.fst ((congrFun hpair i).trans (Function.update_self ..))
    have hother : ∀ j, j ≠ i → (s.fds j).fd = (w.server.fds j).fd := fun j hj =>
      congrArg Prod.fst ((congrFun hpair j).trans (Function.update_of_ne hj ..))
    constructor
    · rintro ⟨⟨j, ⟨h1, h2⟩, rfl⟩, hne⟩
      have hji : j ≠ i := by rintro rfl; exact hne rfl
      rcases eq_or_ne j w.server.userCount with rfl | hj
      · exact ⟨i, ⟨hi1, by omega⟩, hself⟩
      · exact ⟨j, ⟨h1, by omega⟩, hother j hji⟩
    · rintro ⟨j, ⟨h1, h2⟩, rfl⟩
      have hfd : ∀ k, InUse w.server k → k ≠ i → (w.server.fds k).fd ≠ (w.server.fds i).fd :=
        fun k hk hki hfd => hki (h.tables.fd_inj hk ⟨hi1, hin⟩ hfd)
      rcases eq_or_ne j i with rfl | hj
      · rw [hself]
        have hn : InUse w.server w.server.userCount := ⟨by omega, le_rfl⟩
        exact ⟨⟨_, hn, rfl⟩, hfd _ hn (by omega)⟩
      · rw [hother j hj]
        have hk : InUse w.server j := ⟨h1, by omega⟩
        exact ⟨⟨j, hk, rfl⟩, hfd j hk hj⟩
  · have hperm := h.perm
    rw [pending_scan hp (by omega)] at hperm
    have hlen : w.server.userCount = i + ((w.server.userCount - i).toNat : ℤ) := by omega
    simp only [Server.pending, hp', hc, hpair, sub_add_cancel, List.append_assoc]
    refine .trans (.append_left _ (.append_left _ ?_)) hperm
    have := segment_swapRemove w.server.pair i (w.server.userCount - i).toNat
    rwa [← hlen] at this
  · obtain rfl : i = 0 := by simpa [hp'] using h0
    omega

/-! ## Runs -/

theorem examine_sockfd (hex : s.examine accepted received i = some s') : s'.sockfd = s.sockfd := by
  unfold Server.examine at hex
  cases hb : s.branch i with
  | accept =>
    obtain rfl : { s.accept accepted with phase := .scan (i + 1) } = s' := by simpa [hb] using hex
    cases accepted with
    | none => rfl
    | some fd =>
      simp only [Server.accept]
      split <;> rfl
  | error | idle | departure =>
    obtain rfl : _ = s' := by simpa [hb] using hex
    rfl
  | read =>
    obtain rfl : s.read received i = s' := by simpa [hb] using hex
    rcases read_cases received i s with ⟨-, h1⟩ | ⟨-, h1⟩ | ⟨msg, s1, -, h1, hn⟩ <;> rw [h1]
    · rfl
    · rfl
    · rw [hn.frame]
      rfl
  | write =>
    have hw : s.write i = some s' := by simpa [hb] using hex
    rcases write_cases hw with ⟨-, rfl⟩ | ⟨x, msg, -, -, rfl⟩ <;> rfl

theorem Rounds.step {e : Event} (h : Rounds w) (hok : Watched.Legal w e)
    (hstep : Watched.step w e = some w') : Rounds w' ∧ w'.server.sockfd = w.server.sockfd := by
  have htables : ∀ s, PollChat.step w.server e = some s → Tables s := by
    refine fun s => tables_step h.tables ?_
    cases e with
    | poll r => exact trivial
    | examine a r =>
      refine ⟨fun fd hfd => ?_, hok.2⟩
      obtain ⟨h1, h2, h3, h4⟩ := hok.1 fd hfd
      refine ⟨h1, h2, h3, fun p hp hpfd => h4 ?_⟩
      obtain ⟨j, hj, rfl⟩ := mem_entries.mp hp
      exact (h.live fd).mpr ⟨j, hj, hpfd⟩
  have ht : Tables w'.server := by
    obtain ⟨s, hs, hw⟩ := Option.bind_eq_some_iff.mp hstep
    have hs' : w'.server = s := by
      split at hw <;> obtain rfl := Option.some.inj hw <;> rfl
    exact hs' ▸ htables s hs
  rcases Watched.step_cases hstep with
    ⟨r, rfl, hp, rfl⟩ | ⟨a, r, i, rfl, hp, hi, rfl⟩ | ⟨a, r, i, s, rfl, hp, hi, hex, rfl⟩
  · exact ⟨h.poll r ht, rfl⟩
  · refine ⟨⟨ht, h.live, ?_, h.nodup, fun h0 => by simp at h0⟩, rfl⟩
    have hperm := h.perm
    have hdone : (w.server.userCount + 1 - i).toNat = 0 := by omega
    simpa [Server.pending, hp, hdone] using hperm
  · refine ⟨?_, examine_sockfd hex⟩
    have hi0 := h.tables.scanning i hp
    rcases examine_shape h.tables.toRoster hi0 hi hex with
      ⟨h1, h2, h3, h4, h5⟩ | ⟨fd, rfl, rfl, h1, h2, h3, h4, h5⟩ | ⟨hin, h1, h2, h3, h4, h5⟩
    · simpa [h1, h2] using h.advance ht hp hi0 hi h3 h4 h5
    · obtain ⟨-, -, hsock, hlive⟩ := hok.1 fd rfl
      simpa [h1, h2] using h.join ht hp hsock hlive h3 h4 h5
    · simpa [h1, h2] using h.depart ht hp hin h3 h4 h5

theorem rounds_init (h : Watched.Init w) : Rounds w := by
  obtain ⟨hs, hl, hp, ha, hsn⟩ := h
  have hphase := hs.2.2.2.1
  have hcount := hs.2.2.1
  refine ⟨tables_init hs, fun fd => ?_, ?_, by simp [hp, ha], fun _ => hsn⟩
  · rw [hl]
    refine ⟨fun h => by simp at h, ?_⟩
    rintro ⟨j, ⟨h1, h2⟩, -⟩
    omega
  · simp [hsn, hp, ha, Server.pending, hphase]

theorem entries_eq : s.entries = segment s.fds 1 s.userCount.toNat := by
  simp only [Server.entries, segment, add_comm]

/-- Whatever `poll`, `accept` and `recv` return: the number of clients stays in its bounds and
the listening socket in its place, and when a round ends the entries in use are the open
connections, each once, and the loop has examined each entry that `poll` reported on, and
each one that was appended, once. -/
theorem rounds_kept {w0 : Watched} {es : List Event} (h0 : Watched.Init w0)
    (hrun : Exec Watched.Legal Watched.step w0 es w) :
    (0 ≤ w.server.userCount ∧ w.server.userCount ≤ userLimit) ∧
      (w.server.fds 0).fd = w0.server.sockfd ∧
      (w.server.phase = .poll →
        (w.server.entries.map PollFd.fd).Nodup ∧
        (∀ fd, fd ∈ w.server.entries.map PollFd.fd ↔ fd ∈ w.live) ∧
        w.seen.Perm (w.present ++ w.arrived) ∧ (w.seen.map Prod.fst).Nodup) := by
  obtain ⟨h, hsock⟩ := hrun.invariant (I := fun w => Rounds w ∧ w.server.sockfd = w0.server.sockfd)
    (fun _ _ _ ⟨h, hs⟩ hok hstep => ⟨(h.step hok hstep).1, (h.step hok hstep).2.trans hs⟩)
    ⟨rounds_init h0, rfl⟩
  refine ⟨⟨h.tables.count, h.tables.limit⟩, h.tables.listenFd.trans hsock, fun hp => ?_⟩
  have hperm : w.seen.Perm (w.present ++ w.arrived) := by simpa [Server.pending, hp] using h.perm
  refine ⟨?_, fun fd => ?_, hperm, (hperm.map Prod.fst).nodup_iff.mpr h.nodup⟩
  · rw [entries_eq, map_segment]
    exact segment_nodup fun j k h1 h2 h3 h4 hjk => h.tables.fd_inj ⟨h1, by omega⟩ ⟨h3, by omega⟩ hjk
  · rw [h.live, List.mem_map]
    constructor
    · rintro ⟨p, hp, rfl⟩
      obtain ⟨j, hj, rfl⟩ := mem_entries.mp hp
      exact ⟨j, hj, rfl⟩
    · rintro ⟨j, hj, rfl⟩
      exact ⟨_, mem_entries.mpr ⟨j, hj, rfl⟩, rfl⟩

/-- Two clients join; then in one round the first of them leaves and a third one joins. -/
theorem rounds_kept_three : ∃ w : Watched,
    w.seen.Perm (w.present ++ w.arrived) ∧ w.live = {6, 7} ∧
      w.seen.map Prod.fst = [3, 5, 7, 6] := by
  let join (fd : ℤ) : Event := .examine (some fd) .again
  let look : Event := .examine none .again
  obtain ⟨w, hw, hl, hs, hp⟩ : ∃ w : Watched, play Watched.Legal Watched.step ⟨start, ∅, [], [], []⟩
      [.poll fun i => if i = 0 then pollin else 0, join 5, look, look,
        .poll fun i => if i = 0 then pollin else 0, join 6, look, look, look,
        .poll fun i => if i = 0 then pollin else if i = 1 then pollrdhup else 0,
        join 7, look, look, look, look] = some w ∧ w.live = {6, 7} ∧
      w.seen.map Prod.fst = [3, 5, 7, 6] ∧ w.server.phase = .poll := ⟨_, rfl, by decide⟩
  exact ⟨w, ((rounds_kept ⟨init_start, rfl, rfl, rfl, rfl⟩ (exec_of_play hw)).2.2 hp).2.2.1, hl, hs⟩

end LinuxServer.PollChat
