import Mathlib.Data.List.Basic

/-!
# Descriptors under edge triggering

A port is a receive queue with the memory of its edge: whether something has arrived
that has not been reported.  A report covers all arrivals before it, and none follows
it until something new arrives.
-/

namespace LinuxServer

/-- The queue of a descriptor, and whether an arrival has not been reported yet. -/
structure Port (α : Type*) where
  queue : List α
  edge : Bool
  deriving DecidableEq, Repr

namespace Port

variable {α : Type*} {p : Port α} {n : ℕ}

def empty : Port α := ⟨[], false⟩

/-- New input, or the end of it if there is none. -/
def arrive (p : Port α) (xs : List α) : Port α := ⟨p.queue ++ xs, true⟩

/-- The arrivals are reported. -/
def report (p : Port α) : Port α := { p with edge := false }

/-- What is left after a call that takes up to `n` items. -/
def taken (n : ℕ) (p : Port α) : Port α := { p with queue := p.queue.drop n }

/-- Nothing waits without an event to come. -/
def Settled (p : Port α) : Prop := p.queue = [] ∨ p.edge = true

/-- A call that takes up to `n` items leaves nothing, or more has arrived since the report. -/
def Fits (n : ℕ) (p : Port α) : Prop := p.queue.length ≤ n ∨ p.edge = true

instance (n : ℕ) (p : Port α) : Decidable (Fits n p) := inferInstanceAs (Decidable (_ ∨ _))

theorem settled_empty : Settled (empty : Port α) := .inl rfl

theorem settled_arrive (p : Port α) (xs : List α) : Settled (p.arrive xs) := .inr rfl

theorem Settled.taken (h : Settled p) (n : ℕ) : Settled (p.taken n) :=
  h.imp_left fun h => by simp [Port.taken, h]

theorem Fits.settled (h : Fits n p) : Settled (p.taken n) :=
  h.imp_left fun h => List.drop_eq_nil_iff.mpr h

end Port

end LinuxServer
