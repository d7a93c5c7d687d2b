import Mathlib

/-!
# Runs of a labelled machine

A machine is a partial function `step` from states and labels to states: `none`
is a label that is not enabled, or a step that crashes.  A run is restricted by a
predicate `ok` on the state before a step and its label, which is where the
promises of the environment go.
-/

namespace LinuxServer

variable {σ ε : Type*}

/-- The states reached from an initial one by steps that all satisfy `ok`. -/
inductive Reach (init : σ → Prop) (ok : σ → ε → Prop) (step : σ → ε → Option σ) : σ → Prop
  | start {s : σ} : init s → Reach init ok step s
  | next {s s' : σ} {e : ε} :
      Reach init ok step s → ok s e → step s e = some s' → Reach init ok step s'

/-- A finite run from one state to another, with its labels in order. -/
inductive Exec (ok : σ → ε → Prop) (step : σ → ε → Option σ) : σ → List ε → σ → Prop
  | nil (s : σ) : Exec ok step s [] s
  | cons {s t u : σ} {e : ε} {es : List ε} :
      ok s e → step s e = some t → Exec ok step t es u → Exec ok step s (e :: es) u

variable {init : σ → Prop} {ok ok' : σ → ε → Prop} {step : σ → ε → Option σ}

/-- What holds initially and is kept by every step holds in every reached state. -/
theorem Reach.invariant {I : σ → Prop} (h0 : ∀ s, init s → I s)
    (hs : ∀ s e s', I s → ok s e → step s e = some s' → I s') {s : σ}
    (h : Reach init ok step s) : I s := by
  induction h with
  | start hi => exact h0 _ hi
  | next _ hok hstep ih => exact hs _ _ _ ih hok hstep

theorem Reach.mono (hok : ∀ s e, ok s e → ok' s e) {s : σ}
    (h : Reach init ok step s) : Reach init ok' step s := by
  induction h with
  | start hi => exact .start hi
  | next _ h hstep ih => exact .next ih (hok _ _ h) hstep

theorem Reach.exec {s t : σ} {es : List ε} (h : Reach init ok step s)
    (hrun : Exec ok step s es t) : Reach init ok step t := by
  induction hrun with
  | nil => exact h
  | cons hok hstep _ ih => exact ih (h.next hok hstep)

theorem Exec.mono (hok : ∀ s e, ok s e → ok' s e) {s t : σ} {es : List ε}
    (h : Exec ok step s es t) : Exec ok' step s es t := by
  induction h with
  | nil => exact .nil _
  | cons h hstep _ ih => exact .cons (hok _ _ h) hstep ih

/-- What every step of a run keeps, the whole run keeps. -/
theorem Exec.invariant {I : σ → Prop}
    (hs : ∀ s e s', I s → ok s e → step s e = some s' → I s') {s t : σ} {es : List ε}
    (h : Exec ok step s es t) (h0 : I s) : I t := by
  induction h with
  | nil => exact h0
  | cons hok hstep _ ih => exact ih (hs _ _ _ h0 hok hstep)

/-- The same for an invariant that looks back at the labels of the run. -/
theorem Exec.history {I : List ε → σ → Prop}
    (hs : ∀ es s e s', I es s → ok s e → step s e = some s' → I (es ++ [e]) s') {s t : σ}
    {es : List ε} (h : Exec ok step s es t) (h0 : I [] s) : I es t := by
  suffices hrun : ∀ past, I past s → I (past ++ es) t by simpa using hrun [] h0
  clear h0
  induction h with
  | nil =>
    intro past hp
    simpa using hp
  | cons hok hstep _ ih =>
    intro past hp
    have := ih (past ++ [_]) (hs past _ _ _ hp hok hstep)
    simpa using this

/-- A run keeps to a condition throughout, or bears the mark of having broken it. -/
theorem Exec.keeps_or_marked {P : σ → ε → Prop} {I D : σ → Prop}
    (hI : ∀ s e s', I s → ok s e → step s e = some s' → I s')
    (hbreak : ∀ s e s', I s → ok s e → ¬ P s e → step s e = some s' → D s')
    (hD : ∀ s e s', D s → ok s e → step s e = some s' → D s') {s t : σ} {es : List ε}
    (h : Exec ok step s es t) (h0 : I s) : Exec (fun s e => ok s e ∧ P s e) step s es t ∨ D t := by
  induction h with
  | nil => exact .inl (.nil _)
  | @cons s u t e es hok hstep hrun ih =>
    by_cases hp : P s e
    · exact (ih (hI _ _ _ h0 hok hstep)).imp_left (.cons ⟨hok, hp⟩ hstep)
    · exact .inr (hrun.invariant hD (hbreak _ _ _ h0 hok hp hstep))

/-- Play a list of labels, giving up at the first one that is not allowed. -/
def play (ok : σ → ε → Prop) [∀ s e, Decidable (ok s e)] (step : σ → ε → Option σ) :
    σ → List ε → Option σ
  | s, [] => some s
  | s, e :: es => if ok s e then (step s e).bind fun t => play ok step t es else none

theorem exec_of_play [∀ s e, Decidable (ok s e)] {s t : σ} {es : List ε}
    (h : play ok step s es = some t) : Exec ok step s es t := by
  induction es generalizing s with
  | nil =>
    obtain rfl : s = t := by simpa [play] using h
    exact .nil _
  | cons e es ih =>
    simp only [play] at h
    split at h
    next hok =>
      obtain ⟨u, hu, hp⟩ := Option.bind_eq_some_iff.mp h
      exact .cons hok hu (ih hp)
    next => cases h

theorem reach_of_play [∀ s e, Decidable (ok s e)] {s t : σ} {es : List ε} (h0 : init s)
    (h : play ok step s es = some t) : Reach init ok step t :=
  (Reach.start h0).exec (exec_of_play h)

end LinuxServer
