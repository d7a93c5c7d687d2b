import LinuxServer.Runs
import LinuxServer.UndoSemaphore

/-!
# The semaphore of `13-3_IPC_PRIVATE.cpp`

Parent and child take turns with a semaphore of one unit.  Either may be killed at any time,
and a `semop` that waits may be interrupted; `pv` does not look at its result.
-/

namespace LinuxServer.IpcPrivate

inductive Process
  | parent
  | child
  deriving DecidableEq, Repr

instance : Fintype Process := ⟨{.parent, .child}, by intro p; cases p <;> decide⟩

/-- Where a process is: in front of `fork`, not there yet, in front of `pv(sem_id, -1)`,
behind it, behind `pv(sem_id, 1)`, behind `waitpid`, or ended. -/
inductive Pc
  | setUp
  | unborn
  | waiting
  | inside
  | left
  | reaped
  | gone
  deriving DecidableEq, Repr

structure State where
  sem : UndoSemaphore Process
  removed : Bool
  pc : Process → Pc

inductive Event
  | fork (ok : Bool)
  | acquire (p : Process) (interrupted : Bool)
  | release (p : Process)
  | exit
  | waitpid
  | remove
  | kill (p : Process)
  deriving DecidableEq, Repr

namespace State

def goto (p : Process) (pc : Pc) (s : State) : State := { s with pc := Function.update s.pc p pc }

/-- `pv`.  `semop` fails if the semaphore was removed. -/
def pv (p : Process) (op : ℤ) (interrupted : Bool) (s : State) : Option State :=
  if s.removed ∨ interrupted then some s else (s.sem.op p op).map fun sem => { s with sem := sem }

/-- The end of a process, which undoes its operations; on a removed semaphore there is nothing
to undo. -/
def terminate (p : Process) (s : State) : State :=
  { s with
    sem := if s.removed then s.sem else s.sem.exit p
    pc := Function.update s.pc p .gone }

end State

/-- `IPC_PRIVATE` is the same number as `IPC_RMID`, so `semctl` removes the semaphore. -/
def step (s : State) : Event → Option State
  | .fork ok =>
    if s.pc .parent = .setUp then
      some (if ok then (s.goto .parent .waiting).goto .child .waiting else s.terminate .parent)
    else none
  | .acquire p interrupted =>
    if s.pc p = .waiting then (s.pv p (-1) interrupted).map (State.goto p .inside) else none
  | .release p => if s.pc p = .inside then (s.pv p 1 false).map (State.goto p .left) else none
  | .exit => if s.pc .child = .left then some (s.terminate .child) else none
  | .waitpid =>
    if s.pc .parent = .left ∧ s.pc .child = .gone then some (s.goto .parent .reaped) else none
  | .remove =>
    if s.pc .parent = .reaped then some (State.terminate .parent { s with removed := true }) else none
  | .kill p => if s.pc p ≠ .gone ∧ s.pc p ≠ .unborn then some (s.terminate p) else none

/-- Behind `SETVAL`. -/
def start : State where
  sem := .setVal 1
  removed := false
  pc
    | .parent => .setUp
    | .child => .unborn

def Init (s : State) : Prop := s = start

/-- A waiting `semop` is not interrupted. -/
def Uninterrupted (_ : State) : Event → Prop
  | .acquire _ interrupted => interrupted = false
  | _ => True

instance (s : State) : (e : Event) → Decidable (Uninterrupted s e)
  | .acquire _ _ => inferInstanceAs (Decidable (_ = _))
  | .fork _ => isTrue trivial
  | .release _ => isTrue trivial
  | .exit => isTrue trivial
  | .waitpid => isTrue trivial
  | .remove => isTrue trivial
  | .kill _ => isTrue trivial

/-- The process has not ended, and has been there. -/
def Pc.active (pc : Pc) : Prop := pc ≠ .gone ∧ pc ≠ .unborn

instance (pc : Pc) : Decidable pc.active := inferInstanceAs (Decidable (_ ∧ _))

variable {s s' : State} {e : Event} {p q : Process}

/-- What a step does. -/
inductive Moved (s : State) : Event → State → Prop
  | fork (hpc : s.pc .parent = .setUp) : Moved s (.fork true) ((s.goto .parent .waiting).goto .child .waiting)
  | forkFails (hpc : s.pc .parent = .setUp) : Moved s (.fork false) (s.terminate .parent)
  | acquire (p : Process) (sem : UndoSemaphore Process) (hpc : s.pc p = .waiting)
      (hop : s.sem.op p (-1) = some sem) :
      Moved s (.acquire p false) (State.goto p .inside { s with sem := sem })
  | acquireFails (p : Process) (interrupted : Bool) (hpc : s.pc p = .waiting)
      (hfail : s.removed = true ∨ interrupted = true) : Moved s (.acquire p interrupted) (s.goto p .inside)
  | release (p : Process) (sem : UndoSemaphore Process) (hpc : s.pc p = .inside)
      (hop : s.sem.op p 1 = some sem) : Moved s (.release p) (State.goto p .left { s with sem := sem })
  | releaseFails (p : Process) (hpc : s.pc p = .inside) (hfail : s.removed = true) :
      Moved s (.release p) (s.goto p .left)
  | exit (hpc : s.pc .child = .left) : Moved s .exit (s.terminate .child)
  | waitpid (hpc : s.pc .parent = .left) (hchild : s.pc .child = .gone) :
      Moved s .waitpid (s.goto .parent .reaped)
  | remove (hpc : s.pc .parent = .reaped) :
      Moved s .remove (State.terminate .parent { s with removed := true })
  | kill (p : Process) (hpc : (s.pc p).active) : Moved s (.kill p) (s.terminate p)

/-- A failing `semop` goes unnoticed. -/
theorem pv_eq {n : ℤ} {interrupted : Bool} (h : s.pv p n interrupted = some s') :
    (s.removed = true ∨ interrupted = true) ∧ s' = s ∨
      interrupted = false ∧ ∃ sem, s.sem.op p n = some sem ∧ s' = { s with sem := sem } := by
  unfold State.pv at h
  split at h
  next hfail => exact .inl ⟨hfail, (Option.some.inj h).symm⟩
  next hfail =>
    obtain ⟨sem, hop, rfl⟩ := Option.map_eq_some_iff.mp h
    exact .inr ⟨by simpa using (not_or.mp hfail).2, sem, hop, rfl⟩

theorem moved (h : step s e = some s') : Moved s e s' := by
  cases e with
  | fork ok =>
    simp only [step] at h
    split at h
    next hpc =>
      cases ok with
      | true =>
        obtain rfl := Option.some.inj h
        exact .fork hpc
      | false =>
        obtain rfl := Option.some.inj h
        exact .forkFails hpc
    next => cases h
  | acquire p interrupted =>
    simp only [step] at h
    split at h
    next hpc =>
      obtain ⟨t, ht, rfl⟩ := Option.map_eq_some_iff.mp h
      rcases pv_eq ht with ⟨hfail, rfl⟩ | ⟨rfl, sem, hop, rfl⟩
      · exact .acquireFails p interrupted hpc hfail
      · exact .acquire p sem hpc hop
    next => cases h
  | release p =>
    simp only [step] at h
    split at h
    next hpc =>
      obtain ⟨t, ht, rfl⟩ := Option.map_eq_some_iff.mp h
      rcases pv_eq ht with ⟨hfail, rfl⟩ | ⟨-, sem, hop, rfl⟩
      · exact .releaseFails p hpc (by simpa using hfail)
      · exact .release p sem hpc hop
    next => cases h
  | exit =>
    simp only [step] at h
    split at h
    next hpc =>
      obtain rfl := Option.some.inj h
      exact .exit hpc
    next => cases h
  | waitpid =>
    simp only [step] at h
    split at h
    next hpc =>
      obtain rfl := Option.some.inj h
      exact .waitpid hpc.1 hpc.2
    next => cases h
  | remove =>
    simp only [step] at h
    split at h
    next hpc =>
      obtain rfl := Option.some.inj h
      exact .remove hpc
    next => cases h
  | kill p =>
    simp only [step] at h
    split at h
    next hpc =>
      obtain rfl := Option.some.inj h
      exact .kill p hpc
    next => cases h

/-- Which places go together. -/
structure Shape (s : State) : Prop where
  setUp : s.pc .parent = .setUp → s.pc .child = .unborn
  unborn : s.pc .child = .unborn → s.pc .parent = .setUp ∨ s.pc .parent = .gone
  parent : s.pc .parent ≠ .unborn
  child : s.pc .child ≠ .setUp ∧ s.pc .child ≠ .reaped
  reaped : s.pc .parent = .reaped → s.pc .child = .gone

theorem shape_start : Shape start := by
  constructor <;> simp [start]

/-- The end of a process, or a step from one place to the next, other than out of `reaped`. -/
theorem Shape.goto (h : Shape s) (p : Process) (pc : Pc) (hs : s'.pc = Function.update s.pc p pc)
    (hactive : (s.pc p).active) (hpc : pc = .gone ∨ s.pc p ≠ .setUp ∧
      (pc = .inside ∨ pc = .left ∨ pc = .reaped ∧ p = .parent ∧ s.pc .child = .gone)) :
    Shape s' := by
  obtain ⟨hgone, hunborn⟩ := hactive
  have h2 := h.unborn
  have h4 := h.child
  have h5 := h.reaped
  cases p with
  | parent =>
    have hne : Process.child ≠ .parent := by decide
    constructor <;> simp only [hs, Function.update_self, Function.update_of_ne hne]
    · rcases hpc with rfl | ⟨-, rfl | rfl | ⟨rfl, -⟩⟩ <;> simp
    · intro hc
      rcases h2 hc with hp | hp
      · simp_all
      · exact absurd hp hgone
    · rcases hpc with rfl | ⟨-, rfl | rfl | ⟨rfl, -⟩⟩ <;> simp
    · exact h4
    · rcases hpc with rfl | ⟨-, rfl | rfl | ⟨rfl, -, hc⟩⟩ <;> simp_all
  | child =>
    have hne : Process.parent ≠ .child := by decide
    constructor <;> simp only [hs, Function.update_self, Function.update_of_ne hne]
    · intro hp
      exact absurd (h.setUp hp) hunborn
    · rcases hpc with rfl | ⟨-, rfl | rfl | ⟨-, hno, -⟩⟩ <;> simp_all
    · exact h.parent
    · rcases hpc with rfl | ⟨-, rfl | rfl | ⟨-, hno, -⟩⟩ <;> simp_all
    · intro hp
      exact absurd (h5 hp) hgone

theorem Shape.moved (h : Shape s) (ht : Moved s e s') : Shape s' := by
  cases ht with
  | fork hpc => constructor <;> simp [State.goto]
  | forkFails hpc => exact h.goto .parent .gone rfl (by simp [hpc, Pc.active]) (.inl rfl)
  | acquire p sem hpc | acquireFails p interrupted hpc =>
    exact h.goto p .inside rfl (by simp [hpc, Pc.active]) (.inr ⟨by simp [hpc], .inl rfl⟩)
  | release p sem hpc | releaseFails p hpc =>
    exact h.goto p .left rfl (by simp [hpc, Pc.active]) (.inr ⟨by simp [hpc], .inr (.inl rfl)⟩)
  | exit hpc => exact h.goto .child .gone rfl (by simp [hpc, Pc.active]) (.inl rfl)
  | waitpid hpc hchild =>
    exact h.goto .parent .reaped rfl (by simp [hpc, Pc.active])
      (.inr ⟨by simp [hpc], .inr (.inr ⟨rfl, rfl, hchild⟩)⟩)
  | remove hpc => exact h.goto .parent .gone rfl (by simp [hpc, Pc.active]) (.inl rfl)
  | kill p hpc => exact h.goto p .gone rfl hpc (.inl rfl)

/-! ## The value of the semaphore -/

theorem total_eq (s : UndoSemaphore Process) : s.total = s.value + (s.adj .parent + s.adj .child) := by
  have hsum : ∑ p, s.adj p = s.adj .parent + s.adj .child := Finset.sum_pair (by decide)
  rw [UndoSemaphore.total, hsum]

/-- A process has taken a unit that it has not given back, or given one back that it had not
taken, or neither. -/
def Accounted (pc : Pc) (n : ℤ) : Prop :=
  n = 0 ∨ pc = .inside ∧ n = 1 ∨ (pc = .left ∨ pc = .reaped) ∧ n = -1

/-- The value and what the exits will add to it are one unit; a removed semaphore has no users. -/
structure Balanced (s : State) : Prop where
  total : s.sem.total = 1
  value : 0 ≤ s.sem.value
  adj : s.removed = false → ∀ p, Accounted (s.pc p) (s.sem.adj p)
  removed : s.removed = true → ∀ p, ¬ (s.pc p).active

theorem balanced_start : Balanced start :=
  ⟨UndoSemaphore.total_setVal 1, by decide, fun _ _ => .inl rfl, by simp [start]⟩

/-- Whoever has not ended finds the semaphore. -/
theorem Balanced.there (h : Balanced s) (hp : (s.pc p).active) : s.removed = false := by
  by_contra hr
  exact h.removed (by simpa using hr) p hp

theorem terminate_sem (hr : s.removed = false) : (s.terminate p).sem = s.sem.exit p := by
  simp [State.terminate, hr]

theorem Balanced.adj_bounds (h : Balanced s) (hr : s.removed = false) (p : Process) :
    -1 ≤ s.sem.adj p ∧ s.sem.adj p ≤ 1 := by
  rcases h.adj hr p with hp | ⟨-, hp⟩ | ⟨-, hp⟩ <;> omega

/-- With two processes an exit never makes the value negative. -/
theorem Balanced.exit_nonneg (h : Balanced s) (hr : s.removed = false) (p : Process) :
    0 ≤ s.sem.value + s.sem.adj p := by
  have htotal := h.total
  rw [total_eq] at htotal
  have hp := h.adj_bounds hr .parent
  have hc := h.adj_bounds hr .child
  cases p <;> omega

theorem Balanced.terminate (h : Balanced s) (hp : (s.pc p).active) : Balanced (s.terminate p) := by
  have hr := h.there hp
  have hsem : (s.terminate p).sem = s.sem.exit p := terminate_sem hr
  have htotal := UndoSemaphore.total_exit (h.exit_nonneg hr p)
  refine ⟨hsem ▸ htotal.trans h.total, hsem ▸ le_max_left _ _, fun _ q => ?_, fun hr' => ?_⟩
  · rw [hsem]
    by_cases hq : q = p
    · subst hq
      exact .inl UndoSemaphore.exit_adj_self
    · have hpc : (s.terminate p).pc q = s.pc q := Function.update_of_ne hq _ _
      rw [hpc, UndoSemaphore.exit_adj_of_ne hq]
      exact h.adj hr q
  · cases hr'.symm.trans hr

/-- A process moves on, perhaps with an operation on the semaphore. -/
theorem Balanced.goto {sem : UndoSemaphore Process} {pc : Pc} {n : ℤ} (h : Balanced s)
    (hr : s.removed = false) (htotal : sem.total = 1) (hv : 0 ≤ sem.value)
    (hadj : sem.adj = Function.update s.sem.adj p n) (hn : Accounted pc n) :
    Balanced (State.goto p pc { s with sem := sem }) := by
  refine ⟨htotal, hv, fun _ q => ?_, by simp [State.goto, hr]⟩
  show Accounted (Function.update s.pc p pc q) (sem.adj q)
  rw [hadj]
  by_cases hq : q = p
  · subst hq
    rw [Function.update_self, Function.update_self]
    exact hn
  · rw [Function.update_of_ne hq, Function.update_of_ne hq]
    exact h.adj hr q

theorem Balanced.moved (h : Balanced s) (hshape : Shape s) (ht : Moved s e s') : Balanced s' := by
  -- nobody moves on a removed semaphore
  obtain ⟨r, hr⟩ : ∃ r, (s.pc r).active := by
    cases ht with
    | fork hpc | forkFails hpc | waitpid hpc | remove hpc => exact ⟨.parent, by simp [hpc, Pc.active]⟩
    | acquire p _ hpc | acquireFails p _ hpc | release p _ hpc | releaseFails p hpc =>
      exact ⟨p, by simp [hpc, Pc.active]⟩
    | exit hpc => exact ⟨.child, by simp [hpc, Pc.active]⟩
    | kill p hpc => exact ⟨p, hpc⟩
  have hthere := h.there hr
  have hadj := h.adj hthere
  have hzero : ∀ p, s.pc p ≠ .inside → s.pc p ≠ .left → s.pc p ≠ .reaped → s.sem.adj p = 0 := by
    intro p h1 h2 h3
    simpa [Accounted, h1, h2, h3] using hadj p
  have hstay : ∀ p pc, Accounted pc (s.sem.adj p) → Balanced (s.goto p pc) := by
    intro p pc hn
    exact h.goto hthere h.total h.value (Function.update_eq_self p _).symm hn
  cases ht with
  | fork hpc =>
    have hparent := hstay .parent .waiting
      (.inl (hzero .parent (by simp [hpc]) (by simp [hpc]) (by simp [hpc])))
    have hchild := hshape.setUp hpc
    refine hparent.goto hthere h.total h.value (Function.update_eq_self Process.child _).symm (.inl ?_)
    exact hzero .child (by simp [hchild]) (by simp [hchild]) (by simp [hchild])
  | forkFails hpc | exit hpc => exact h.terminate (by simp [hpc, Pc.active])
  | kill p hpc => exact h.terminate hpc
  | acquire p sem hpc hop =>
    obtain ⟨hv, -, hsem⟩ := UndoSemaphore.op_eq hop
    refine h.goto hthere ((UndoSemaphore.total_op hop).trans h.total) hv hsem ?_
    rw [hzero p (by simp [hpc]) (by simp [hpc]) (by simp [hpc])]
    exact .inr (.inl ⟨rfl, rfl⟩)
  | acquireFails p interrupted hpc hfail =>
    exact hstay p .inside (.inl (hzero p (by simp [hpc]) (by simp [hpc]) (by simp [hpc])))
  | release p sem hpc hop =>
    obtain ⟨hv, -, hsem⟩ := UndoSemaphore.op_eq hop
    refine h.goto hthere ((UndoSemaphore.total_op hop).trans h.total) hv hsem ?_
    rcases hadj p with hp | ⟨-, hp⟩ | ⟨hp | hp, -⟩
    · exact .inr (.inr ⟨.inl rfl, by omega⟩)
    · exact .inl (by omega)
    · cases hpc.symm.trans hp
    · cases hpc.symm.trans hp
  | releaseFails p hpc hfail => cases hfail.symm.trans hthere
  | waitpid hpc hchild =>
    refine hstay .parent .reaped ?_
    rcases hadj .parent with hp | ⟨hp, -⟩ | ⟨-, hp⟩
    · exact .inl hp
    · cases hpc.symm.trans hp
    · exact .inr (.inr ⟨.inr rfl, hp⟩)
  | remove hpc =>
    have hchild := hshape.reaped hpc
    refine ⟨h.total, h.value, fun hr => ?_, fun _ q => ?_⟩
    · cases hr
    · cases q <;> simp [State.terminate, Pc.active, hchild]

/-! ## Runs -/

theorem balanced_reach {ok : State → Event → Prop} (h : Reach Init ok step s) : Balanced s ∧ Shape s :=
  h.invariant (I := fun s => Balanced s ∧ Shape s)
    (fun s hi => by obtain rfl : s = start := hi; exact ⟨balanced_start, shape_start⟩)
    fun _ _ _ hi _ hstep => ⟨hi.1.moved hi.2 (moved hstep), hi.2.moved (moved hstep)⟩

theorem Balanced.adj_eq_zero (h : Balanced s) (hr : s.removed = false) (hp : ¬ (s.pc p).active) :
    s.sem.adj p = 0 := by
  rcases h.adj hr p with hn | ⟨he, -⟩ | ⟨he | he, -⟩
  · exact hn
  all_goals simp [he, Pc.active] at hp

/-- The parent has neither failed to fork nor been killed. -/
def Straight (es : List Event) : Prop := .fork false ∉ es ∧ .kill .parent ∉ es

theorem straight_append {es : List Event} :
    Straight (es ++ [e]) ↔ Straight es ∧ e ≠ .fork false ∧ e ≠ .kill .parent := by
  simp only [Straight, List.mem_append, List.mem_singleton, not_or, ne_comm (a := e)]
  exact and_and_and_comm

/-- The semaphore is there as long as the parent, and then gone exactly if the parent came to
its last line. -/
def Cleared (es : List Event) (s : State) : Prop :=
  if s.pc .parent = .gone then s.removed = true ↔ Straight es else s.removed = false ∧ Straight es

theorem Cleared.moved {es : List Event} (h : Cleared es s) (ht : Moved s e s') : Cleared (es ++ [e]) s' := by
  have hsame : (s'.pc .parent = .gone ↔ s.pc .parent = .gone) → s'.removed = s.removed →
      e ≠ .fork false → e ≠ .kill .parent → Cleared (es ++ [e]) s' := by
    intro hpc hr h1 h2
    simpa only [Cleared, hpc, hr, straight_append, h1, h2, ne_eq, not_false_eq_true, and_true] using h
  have hlast : ∀ {pc}, s.pc .parent = pc → pc ≠ .gone → s.removed = false ∧ Straight es := by
    rintro pc rfl hpc
    simpa only [Cleared, hpc, if_false] using h
  cases ht with
  | fork hpc => exact hsame (by simp [State.goto, hpc]) rfl (by simp) (by simp)
  | forkFails hpc =>
    obtain ⟨hr, -⟩ := hlast hpc (by simp)
    simp [Cleared, State.terminate, hr, straight_append]
  | acquire p sem hpc | acquireFails p interrupted hpc | release p sem hpc | releaseFails p hpc =>
    refine hsame ?_ rfl (by simp) (by simp)
    cases p <;> simp [State.goto, hpc]
  | exit => exact hsame (by simp [State.terminate]) rfl (by simp) (by simp)
  | waitpid hpc => exact hsame (by simp [State.goto, hpc]) rfl (by simp) (by simp)
  | remove hpc =>
    obtain ⟨-, hes⟩ := hlast hpc (by simp)
    simp [Cleared, State.terminate, hes, straight_append]
  | kill p hpc =>
    cases p with
    | parent =>
      obtain ⟨hr, -⟩ := hlast rfl hpc.1
      simp [Cleared, State.terminate, hr, straight_append]
    | child => exact hsame (by simp [State.terminate]) rfl (by simp) (by simp)

/-- In every run, whoever is killed and whatever is interrupted, when both processes have ended
the semaphore is removed, unless `fork` failed or the parent was killed; and then it has its
one unit again. -/
theorem value_restored {es : List Event} (hrun : Exec (fun _ _ => True) step start es s)
    (hend : ∀ p, ¬ (s.pc p).active) :
    (s.removed = true ↔ .fork false ∉ es ∧ .kill .parent ∉ es) ∧ (s.removed = false → s.sem.value = 1) := by
  have hreach : Reach Init (fun _ _ => True) step s := (Reach.start (show Init start from rfl)).exec hrun
  obtain ⟨hb, hshape⟩ := balanced_reach hreach
  have hcleared : Cleared es s := hrun.history (I := Cleared)
    (fun _ _ _ _ hi _ hstep => hi.moved (moved hstep)) (by simp [Cleared, Straight, start])
  have hgone : s.pc .parent = .gone := by
    by_contra hgone
    exact hend .parent ⟨hgone, hshape.parent⟩
  refine ⟨by simpa only [Cleared, Straight, hgone, if_true] using hcleared, fun hr => ?_⟩
  have htotal := hb.total
  rw [total_eq, hb.adj_eq_zero hr (hend .parent), hb.adj_eq_zero hr (hend .child)] at htotal
  omega

/-- The parent is interrupted while the child has the semaphore, gives back what it has not taken,
and is killed. -/
theorem value_restored_killed : ∃ s : State, s.removed = false ∧ s.sem.value = 1 := by
  let es : List Event := [.fork true, .acquire .child false, .acquire .parent true, .release .parent,
    .release .child, .kill .parent, .exit]
  let s := (play (fun _ _ => True) step start es).get (by decide)
  have hrun : Exec (fun _ _ => True) step start es s := exec_of_play (Option.some_get _).symm
  have hr : s.removed = false := by decide
  exact ⟨s, hr, (value_restored hrun (by decide)).2 hr⟩

/-- The processes that are inside are those that have the unit. -/
def Held (s : State) : Prop := ∀ p, s.sem.adj p = if s.pc p = .inside then 1 else 0

theorem Held.moved (h : Held s) (hb : Balanced s) (hshape : Shape s) (hok : Uninterrupted s e)
    (ht : Moved s e s') : Held s' := by
  have hzero : ∀ p, s.pc p ≠ .inside → s.sem.adj p = 0 := by
    intro p hp
    rw [h p, if_neg hp]
  have hstep : ∀ p pc (n : ℤ), s'.pc = Function.update s.pc p pc →
      s'.sem.adj = Function.update s.sem.adj p n → n = (if pc = .inside then 1 else 0) → Held s' := by
    intro p pc n hpc hadj hn q
    rw [hpc, hadj]
    by_cases hq : q = p
    · subst hq
      simpa using hn
    · simpa [hq] using h q
  have hsame : ∀ p (n : ℤ), s.sem.adj p = n → s.sem.adj = Function.update s.sem.adj p n := by
    rintro p n rfl
    exact (Function.update_eq_self p _).symm
  have hend : ∀ p, (s.pc p).active → s' = s.terminate p → Held s' := by
    rintro p hp rfl
    exact hstep p .gone 0 rfl (by rw [terminate_sem (hb.there hp)]; rfl) rfl
  cases ht with
  | fork hpc =>
    have hchild := hshape.setUp hpc
    have hadj : ∀ p, s.sem.adj p = 0 := by
      rintro (_ | _)
      · exact hzero .parent (by simp [hpc])
      · exact hzero .child (by simp [hchild])
    intro p
    cases p <;> simp [State.goto, hadj]
  | forkFails hpc => exact hend .parent (by simp [hpc, Pc.active]) rfl
  | acquire p sem hpc hop =>
    obtain ⟨-, -, hadj⟩ := UndoSemaphore.op_eq hop
    refine hstep p .inside _ rfl hadj ?_
    rw [hzero p (by simp [hpc])]
    rfl
  | acquireFails p interrupted hpc hfail =>
    rcases hfail with hr | hi
    · exact absurd (by simp [hpc, Pc.active]) (hb.removed hr p)
    · cases hi.symm.trans hok
  | release p sem hpc hop =>
    obtain ⟨-, -, hadj⟩ := UndoSemaphore.op_eq hop
    refine hstep p .left _ rfl hadj ?_
    rw [h p, if_pos hpc]
    rfl
  | releaseFails p hpc hfail => exact absurd (by simp [hpc, Pc.active]) (hb.removed hfail p)
  | exit hpc => exact hend .child (by simp [hpc, Pc.active]) rfl
  | waitpid hpc hchild =>
    exact hstep .parent .reaped 0 rfl (hsame .parent 0 (hzero .parent (by simp [hpc]))) rfl
  | remove hpc =>
    exact hstep .parent .gone 0 rfl (hsame .parent 0 (hzero .parent (by simp [hpc]))) rfl
  | kill p hpc => exact hend p hpc rfl

theorem held_reach (h : Reach Init Uninterrupted step s) : Held s ∧ Balanced s ∧ Shape s :=
  h.invariant (I := fun s => Held s ∧ Balanced s ∧ Shape s)
    (fun s hi => by
      obtain rfl : s = start := hi
      exact ⟨fun p => by cases p <;> rfl, balanced_start, shape_start⟩)
    fun _ _ _ ⟨hh, hb, hs⟩ hok hstep =>
      ⟨hh.moved hb hs hok (moved hstep), hb.moved hs (moved hstep), hs.moved (moved hstep)⟩

/-- As long as no waiting `semop` is interrupted, in every order of steps, and whoever is
killed, at most one process has the semaphore, whose value says whether one has; so a process
that is killed gives back exactly what it has. -/
theorem one_inside (h : Reach Init Uninterrupted step s) :
    (∀ p q, s.pc p = .inside → s.pc q = .inside → p = q) ∧
      s.sem.value = (if ∃ p, s.pc p = .inside then 0 else 1) ∧
      ∀ p s', step s (.kill p) = some s' →
        s'.sem.value = s.sem.value + if s.pc p = .inside then 1 else 0 := by
  obtain ⟨hh, hb, -⟩ := held_reach h
  have hadj : ∀ r, 0 ≤ s.sem.adj r := by
    intro r
    rw [hh r]
    split <;> omega
  have hone : ∀ p q, s.pc p = .inside → s.pc q = .inside → p = q := fun p q hp hq =>
    UndoSemaphore.holder_unique hb.total hb.value hadj (by simp [hh p, hp]) (by simp [hh q, hq])
  have htotal := hb.total
  rw [total_eq] at htotal
  refine ⟨hone, ?_, fun p s' hkill => ?_⟩
  · split
    next hinside =>
      obtain ⟨p, hp⟩ := hinside
      have hp1 : s.sem.adj p = 1 := by rw [hh p, if_pos hp]
      have hv := hb.value
      have hparent := hadj .parent
      have hchild := hadj .child
      cases p <;> omega
    next hnone =>
      have hzero : ∀ p, s.sem.adj p = 0 := fun p => by rw [hh p, if_neg fun hp => hnone ⟨p, hp⟩]
      rw [hzero .parent, hzero .child] at htotal
      omega
  · obtain ⟨hpc, rfl⟩ : (s.pc p).active ∧ s' = s.terminate p := by
      cases moved hkill
      exact ⟨‹_›, rfl⟩
    rw [terminate_sem (hb.there hpc), ← hh p]
    exact max_eq_right (hb.exit_nonneg (hb.there hpc) p)

/-- The child is killed while it has the semaphore. -/
theorem one_inside_killed : ∃ s s' : State, s.pc .child = .inside ∧ step s (.kill .child) = some s' ∧
    s'.sem.value = s.sem.value + 1 := by
  let s := (play Uninterrupted step start [.fork true, .acquire .child false]).get (by decide)
  have h : Reach Init Uninterrupted step s := reach_of_play rfl (Option.some_get _).symm
  have hp : s.pc .child = .inside := by decide
  have hkill : step s (.kill .child) = some (s.terminate .child) := by simp [step, hp]
  exact ⟨s, _, hp, hkill, by rw [(one_inside h).2.2 _ _ hkill, if_pos hp]⟩

/-- The steps that a process can still take. -/
def Pc.rank : Pc → ℕ
  | .setUp => 9
  | .unborn => 0
  | .waiting => 4
  | .inside => 3
  | .left => 2
  | .reaped => 1
  | .gone => 0

def rank (s : State) : ℕ := (s.pc .parent).rank + (s.pc .child).rank

theorem rank_moved (hshape : Shape s) (ht : Moved s e s') : rank s' < rank s := by
  have hstep : ∀ p pc, s'.pc = Function.update s.pc p pc → pc.rank < (s.pc p).rank → rank s' < rank s := by
    intro p pc hpc hlt
    unfold rank
    rw [hpc]
    cases p <;> simp <;> omega
  cases ht with
  | fork hpc =>
    have hchild := hshape.setUp hpc
    simp [rank, State.goto, hpc, hchild, Pc.rank]
  | forkFails hpc | remove hpc => exact hstep .parent .gone rfl (by simp [hpc, Pc.rank])
  | acquire p sem hpc | acquireFails p interrupted hpc => exact hstep p .inside rfl (by simp [hpc, Pc.rank])
  | release p sem hpc | releaseFails p hpc => exact hstep p .left rfl (by simp [hpc, Pc.rank])
  | exit hpc => exact hstep .child .gone rfl (by simp [hpc, Pc.rank])
  | waitpid hpc hchild => exact hstep .parent .reaped rfl (by simp [hpc, Pc.rank])
  | kill p hpc =>
    refine hstep p .gone rfl ?_
    obtain ⟨hgone, hunborn⟩ := hpc
    cases hp : s.pc p <;> simp_all [Pc.rank]

/-- A step that a process takes by itself. -/
def Own (s : State) (e : Event) : Prop := (∀ p, e ≠ .kill p) ∧ Uninterrupted s e ∧ ∃ s', step s e = some s'

/-- A process that is inside goes on; and if none is, a waiting one does. -/
theorem Balanced.goes_on (h : Balanced s) (hshape : Shape s) (hp : (s.pc p).active) : ∃ e, Own s e := by
  have hr := h.there hp
  by_cases hinside : ∃ q, s.pc q = .inside
  · obtain ⟨q, hq⟩ := hinside
    have hop : ∃ sem, s.sem.op q 1 = some sem := ⟨_, if_pos (by have := h.value; omega)⟩
    obtain ⟨sem, hop⟩ := hop
    exact ⟨.release q, by simp, trivial, by simp [step, hq, State.pv, hr, hop]⟩
  by_cases hwaiting : ∃ q, s.pc q = .waiting
  · obtain ⟨q, hq⟩ := hwaiting
    -- a unit that was taken is given back before its process goes on
    have hadj : ∀ r, s.sem.adj r ≤ 0 := by
      intro r
      rcases h.adj hr r with hn | ⟨hin, -⟩ | ⟨-, hn⟩
      · omega
      · exact absurd ⟨r, hin⟩ hinside
      · omega
    obtain ⟨sem, hop⟩ := UndoSemaphore.op_of_free h.total hadj q
    exact ⟨.acquire q false, by simp, rfl, by simp [step, hq, State.pv, hr, hop]⟩
  -- what is left is the way out
  have hin : ∀ q, s.pc q ≠ .inside := fun q hq => hinside ⟨q, hq⟩
  have hwait : ∀ q, s.pc q ≠ .waiting := fun q hq => hwaiting ⟨q, hq⟩
  by_cases hleft : s.pc .child = .left
  · exact ⟨.exit, by simp, trivial, by simp [step, hleft]⟩
  have hchild : s.pc .child = .unborn ∨ s.pc .child = .gone := by
    have h1 := hin .child
    have h2 := hwait .child
    have h3 := hshape.child
    cases hc : s.pc .child <;> simp_all
  have hparent : (s.pc .parent).active := by
    cases p with
    | parent => exact hp
    | child =>
      obtain ⟨hgone, hunborn⟩ := hp
      rcases hchild with hc | hc
      · exact absurd hc hunborn
      · exact absurd hc hgone
  cases hpc : s.pc .parent with
  | setUp => exact ⟨.fork true, by simp, trivial, by simp [step, hpc]⟩
  | reaped => exact ⟨.remove, by simp, trivial, by simp [step, hpc]⟩
  | left =>
    rcases hchild with hc | hc
    · rcases hshape.unborn hc with he | he
      · cases hpc.symm.trans he
      · cases hpc.symm.trans he
    · exact ⟨.waitpid, by simp, trivial, by simp [step, hpc, hc]⟩
  | inside => exact absurd hpc (hin .parent)
  | waiting => exact absurd hpc (hwait .parent)
  | unborn => exact absurd hpc hparent.2
  | gone => exact absurd hpc hparent.1

/-- Every run is short, and it never gets stuck: as long as a process has not ended, some
process can take a step by itself. -/
theorem runs_finish {es : List Event} (hrun : Exec (fun _ _ => True) step start es s) :
    es.length ≤ 9 ∧ ((s.pc p).active → ∃ e, Own s e) := by
  obtain ⟨⟨hb, hs⟩, hlen⟩ := hrun.history
    (I := fun es s => (Balanced s ∧ Shape s) ∧ es.length + rank s ≤ 9)
    (fun es s e s' hi _ hstep => by
      obtain ⟨⟨hb, hs⟩, hlen⟩ := hi
      have ht := moved hstep
      have hlt := rank_moved hs ht
      refine ⟨⟨hb.moved hs ht, hs.moved ht⟩, ?_⟩
      rw [List.length_append, List.length_singleton]
      omega)
    ⟨⟨balanced_start, shape_start⟩, by decide⟩
  exact ⟨by omega, hb.goes_on hs⟩

/-- The child waits for the parent, which was interrupted. -/
theorem runs_finish_waiting : ∃ s, s.pc .child = .waiting ∧ ∃ e, Own s e := by
  let es : List Event := [.fork true, .acquire .parent true, .release .parent]
  let s := (play (fun _ _ => True) step start es).get (by decide)
  have hrun : Exec (fun _ _ => True) step start es s := exec_of_play (Option.some_get _).symm
  exact ⟨s, by decide, (runs_finish (p := .child) hrun).2 (by decide)⟩

end LinuxServer.IpcPrivate
