import Mathlib.Tactic.TypeStar

/-!
# Reachable states

The states that a transition relation leads to from its initial states, and the
rule that proves an invariant of all of them.
-/

namespace Transition

variable {σ : Type*} {init : σ → Prop} {step : σ → σ → Prop} {s : σ}

/-- The states that finitely many steps lead to. -/
inductive Reachable (init : σ → Prop) (step : σ → σ → Prop) : σ → Prop
  | start {s : σ} : init s → Reachable init step s
  | next {s t : σ} : Reachable init step s → step s t → Reachable init step t

/-- What holds at the start and is kept by every step holds in every reachable state. -/
theorem Reachable.invariant {I : σ → Prop} (h : Reachable init step s)
    (h0 : ∀ s, init s → I s) (hstep : ∀ s t, I s → step s t → I t) : I s := by
  induction h with
  | start hi => exact h0 _ hi
  | next _ hst ih => exact hstep _ _ ih hst

/-- More steps lead to more states. -/
theorem Reachable.mono {step' : σ → σ → Prop} (h : Reachable init step s)
    (hstep : ∀ s t, step s t → step' s t) : Reachable init step' s := by
  induction h with
  | start hi => exact .start hi
  | next _ hst ih => exact ih.next (hstep _ _ hst)

end Transition
