import LinuxServer.Runs

/-!
# What flows through a machine

The steps of a run bring items in, and the state holds them somewhere in an order: in
queues, in hand, and among what was put out.  If no step adds an item of its own, repeats
one or swaps two, then neither does a run; if no step loses one, then nothing is lost.
-/

namespace LinuxServer

variable {σ ε α : Type*}

/-- What the steps of a run bring in, in order. -/
def brought (step : σ → ε → Option σ) (input : σ → ε → List α) : σ → List ε → List α
  | _, [] => []
  | s, e :: es => input s e ++ (step s e).elim [] fun t => brought step input t es

/-- Nothing is added, repeated or swapped, and under the condition `P` nothing is lost. -/
def Carried (P : Prop) (new old : List α) : Prop := new.Sublist old ∧ (P → new = old)

namespace Carried

variable {P Q : Prop} {a b c d : List α}

theorem of_eq (h : a = b) : Carried P a b := ⟨by rw [h], fun _ => h⟩

theorem of_lost (h : a.Sublist b) (hp : ¬ P) : Carried P a b := ⟨h, fun hp' => absurd hp' hp⟩

theorem mono (h : Carried P a b) (hpq : Q → P) : Carried Q a b := ⟨h.1, fun hq => h.2 (hpq hq)⟩

theorem trans (h : Carried P a b) (h' : Carried P b c) : Carried P a c :=
  ⟨h.1.trans h'.1, fun hp => (h.2 hp).trans (h'.2 hp)⟩

theorem append (h : Carried P a b) (h' : Carried P c d) : Carried P (a ++ c) (b ++ d) :=
  ⟨h.1.append h'.1, fun hp => by rw [h.2 hp, h'.2 hp]⟩

theorem filter (h : Carried P a b) (f : α → Bool) : Carried P (a.filter f) (b.filter f) :=
  ⟨h.1.filter f, fun hp => by rw [h.2 hp]⟩

end Carried

variable {ok lossless : σ → ε → Prop} {step : σ → ε → Option σ} {input : σ → ε → List α}
  {I D : σ → Prop} {s t : σ} {e : ε} {es : List ε}

theorem brought_cons (h : step s e = some t) :
    brought step input s (e :: es) = input s e ++ brought step input t es := by
  rw [brought, h]
  rfl

/-- If every step carries on what there was and what it brings, so does a run.  Whether a
step loses something may depend on a condition on the state after it that, once broken,
stays broken. -/
theorem Exec.carried (flow : σ → List α) (hI : ∀ s e s', I s → ok s e → step s e = some s' → I s')
    (hD : ∀ s e s', I s → ok s e → step s e = some s' → D s' → D s)
    (hflow : ∀ s e s', I s → ok s e → step s e = some s' →
      Carried (lossless s e ∧ D s') (flow s') (flow s ++ input s e))
    (h : Exec ok step s es t) (h0 : I s) :
    Carried (Exec (fun s e => ok s e ∧ lossless s e) step s es t ∧ D t) (flow t)
      (flow s ++ brought step input s es) := by
  suffices hback : Carried (Exec (fun s e => ok s e ∧ lossless s e) step s es t ∧ D t) (flow t)
      (flow s ++ brought step input s es) ∧ (D t → D s) from hback.1
  induction h with
  | nil s => exact ⟨.of_eq (by simp [brought]), id⟩
  | @cons s u t e es hok hstep hrun ih =>
    obtain ⟨hu, hdu⟩ := ih (hI _ _ _ h0 hok hstep)
    have hs := hflow _ _ _ h0 hok hstep
    refine ⟨?_, fun hd => hD _ _ _ h0 hok hstep (hdu hd)⟩
    rw [brought_cons hstep, ← List.append_assoc]
    refine ⟨hu.1.trans (hs.1.append_right _), fun hall => ?_⟩
    obtain ⟨hclean, hd⟩ := hall
    cases hclean with
    | cons hok' hstep' hrun' =>
      obtain rfl := Option.some.inj (hstep.symm.trans hstep')
      rw [hu.2 ⟨hrun', hd⟩, hs.2 ⟨hok'.2, hdu hd⟩]

/-- If no step loses anything, neither does a run. -/
theorem Exec.brings (flow : σ → List α) (hI : ∀ s e s', I s → ok s e → step s e = some s' → I s')
    (hflow : ∀ s e s', I s → ok s e → step s e = some s' → flow s' = flow s ++ input s e)
    (h : Exec ok step s es t) (h0 : I s) : flow t = flow s ++ brought step input s es := by
  induction h with
  | nil s => simp [brought]
  | cons hok hstep hrun ih =>
    rw [ih (hI _ _ _ h0 hok hstep), hflow _ _ _ h0 hok hstep, brought_cons hstep, List.append_assoc]

end LinuxServer
