import Mathlib.Data.List.Basic

/-!
# Loops that may fail

A loop over a list whose body may fail, as a `foldlM` of `Option`. Its invariant speaks of
the part of the list that the loop has gone through.
-/

namespace Loops

variable {α σ : Type*} {f : σ → α → Option σ} {I : List α → σ → Prop} {xs : List α} {s s' : σ}

/-- What holds before a loop and is kept by each of its rounds holds after it. -/
theorem foldlM_invariant (h0 : I [] s)
    (hstep : ∀ x rest done, xs = done ++ x :: rest →
      ∀ s s', I done s → f s x = some s' → I (done ++ [x]) s')
    (he : xs.foldlM f s = some s') : I xs s' := by
  suffices h : ∀ ys done s, xs = done ++ ys → I done s → ys.foldlM f s = some s' → I xs s' from
    h xs [] s rfl h0 he
  intro ys
  induction ys with
  | nil =>
    rintro done s rfl h he
    rw [List.foldlM_nil] at he
    obtain rfl := Option.some.inj he
    rwa [List.append_nil]
  | cons y ys ih =>
    rintro done s rfl h he
    rw [List.foldlM_cons] at he
    obtain ⟨s1, e1, he⟩ := Option.bind_eq_some_iff.mp he
    exact ih (done ++ [y]) s1 (by simp) (hstep y ys done rfl s s1 h e1) he

variable (xs) in
/-- A loop goes through if all its rounds do. -/
theorem foldlM_isSome (h0 : I [] s)
    (hstep : ∀ x rest done, xs = done ++ x :: rest → ∀ s, I done s →
      ∃ s', f s x = some s' ∧ I (done ++ [x]) s') : ∃ s', xs.foldlM f s = some s' ∧ I xs s' := by
  suffices h : ∀ ys done s, xs = done ++ ys → I done s → ∃ s', ys.foldlM f s = some s' ∧ I xs s' from
    h xs [] s rfl h0
  intro ys
  induction ys with
  | nil =>
    rintro done s rfl h
    exact ⟨s, rfl, by rwa [List.append_nil]⟩
  | cons y ys ih =>
    rintro done s rfl h
    obtain ⟨s1, e1, h1⟩ := hstep y ys done rfl s h
    obtain ⟨s', e, h'⟩ := ih (done ++ [y]) s1 (by simp) h1
    refine ⟨s', ?_, h'⟩
    rw [List.foldlM_cons, e1]
    exact e

end Loops
