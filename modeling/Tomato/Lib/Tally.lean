import Mathlib.Algebra.BigOperators.Group.Finset.Basic
import Mathlib.Algebra.Order.BigOperators.Group.Finset

/-!
# Counting over the parts of a system

A finite number of parties, each in a state of its own, and a number that is read off each of
them: the locks that a party holds, or its references to an object. A counter that somebody
keeps is right if it is the sum, and only the party that moves changes the sum.
-/

namespace Tally

open Finset

variable {ι σ : Type*} [Fintype ι] {g h : σ → ℕ} {p : ι → σ} {c d : ι} {q : σ}

/-- The sum of a number over all the parties. -/
def tally (g : σ → ℕ) (p : ι → σ) : ℕ := ∑ c, g (p c)

theorem le_tally (g : σ → ℕ) (p : ι → σ) (c : ι) : g (p c) ≤ tally g p :=
  single_le_sum (f := fun c => g (p c)) (fun _ _ => Nat.zero_le _) (mem_univ c)

theorem exists_pos (hpos : 0 < tally g p) : ∃ c, 0 < g (p c) := by
  by_contra hc
  push Not at hc
  have hzero : tally g p = 0 := sum_eq_zero fun c _ => Nat.le_zero.mp (hc c)
  omega

theorem tally_eq_zero (hz : ∀ c, g (p c) = 0) : tally g p = 0 :=
  sum_eq_zero fun c _ => hz c

variable [DecidableEq ι]

theorem add_le_tally (g : σ → ℕ) (p : ι → σ) (hne : c ≠ d) :
    g (p c) + g (p d) ≤ tally g p := by
  have hsub : ({c, d} : Finset ι) ⊆ univ := subset_univ _
  calc
    g (p c) + g (p d) = ∑ e ∈ ({c, d} : Finset ι), g (p e) := (sum_pair (f := fun e => g (p e)) hne).symm
    _ ≤ tally g p := sum_le_sum_of_subset hsub

/-- One party moves. -/
theorem tally_update (g : σ → ℕ) (p : ι → σ) (c : ι) (q : σ) :
    tally g (Function.update p c q) + g (p c) = tally g p + g q := by
  have hrest : ∀ p' : ι → σ, tally g p' = g (p' c) + ∑ d ∈ univ.erase c, g (p' d) := fun p' =>
    (add_sum_erase univ (fun d => g (p' d)) (mem_univ c)).symm
  have hsame : ∑ d ∈ univ.erase c, g (Function.update p c q d) = ∑ d ∈ univ.erase c, g (p d) :=
    sum_congr rfl fun d hd => by rw [Function.update_of_ne (ne_of_mem_erase hd)]
  rw [hrest (Function.update p c q), hrest p, hsame, Function.update_self]
  omega

/-- Where the sum is at most one, only one party has anything. -/
theorem eq_of_tally_le_one (hle : tally g p ≤ 1) (hc : 0 < g (p c)) (hd : 0 < g (p d)) : c = d := by
  by_contra hne
  have := add_le_tally g p hne
  omega

end Tally
