import Mathlib.Tactic

/-!
# Forests by parents

A forest that is given by the parent of each node, and nodes with sets of points: the set
of a node is a part of the one of its parent, and the sets of siblings have no point in
common. Two nodes of one tree with a common point are then one below the other.
-/

namespace Forest

variable {α β : Type*}

/-- The node `x` is `r` or below it. -/
def Below (parent : α → Option α) : α → α → Prop :=
  Relation.ReflTransGen fun x p => parent x = some p

/-- No way up is endless or leads back, as every parent has a higher rank. -/
def Ranked (parent : α → Option α) (rank : α → ℕ) : Prop :=
  ∀ x p, parent x = some p → rank x < rank p

/-- All the ways down from a node are shorter than `n`, and no node on them has `n` children. -/
def Bounded (parent : α → Option α) : ℕ → α → Prop
  | 0, _ => False
  | n + 1, x => (∃ xs : List α, xs.length ≤ n ∧ ∀ y, parent y = some x → y ∈ xs) ∧
      ∀ y, parent y = some x → Bounded parent n y

structure Nested (parent : α → Option α) (points : α → Set β) : Prop where
  inside : ∀ x p, parent x = some p → points x ⊆ points p
  apart : ∀ x y p b, parent x = some p → parent y = some p → b ∈ points x → b ∈ points y → x = y

variable {parent parent' : α → Option α} {points : α → Set β} {rank : α → ℕ} {x y z p r c : α} {b : β}

namespace Below

theorem refl (x : α) : Below parent x x := Relation.ReflTransGen.refl

theorem head (hp : parent x = some p) (h : Below parent p r) : Below parent x r :=
  Relation.ReflTransGen.head hp h

theorem tail (h : Below parent x y) (hp : parent y = some p) : Below parent x p :=
  Relation.ReflTransGen.tail h hp

theorem trans (h : Below parent x y) (h' : Below parent y z) : Below parent x z :=
  Relation.ReflTransGen.trans h h'

/-- A node without a parent is only below itself. -/
theorem eq_of_root (h : Below parent x r) (hx : parent x = none) : x = r := by
  rcases Relation.ReflTransGen.cases_head h with he | ⟨p, hp, -⟩
  · exact he
  · simp [hx] at hp

/-- A node without children has only itself below it. -/
theorem eq_of_leaf (h : Below parent x r) (hr : ∀ y, parent y ≠ some r) : x = r := by
  rcases Relation.ReflTransGen.cases_tail h with he | ⟨y, -, hy⟩
  · exact he.symm
  · exact absurd hy (hr y)

theorem rank_le (h : Below parent x r) (hk : Ranked parent rank) : rank x ≤ rank r := by
  induction h with
  | refl => exact le_rfl
  | tail _ hp ih => exact ih.trans (hk _ _ hp).le

/-- The nodes in `S` have lost their parents, and `S` has with a node all that is below it. -/
theorem cut_iff {S : Set α} (hin : ∀ y ∈ S, parent' y = none)
    (hout : ∀ y ∉ S, parent' y = parent y)
    (hclosed : ∀ y p, parent y = some p → p ∈ S → y ∈ S) (hr : r ∉ S) :
    Below parent' x r ↔ x ∉ S ∧ Below parent x r := by
  constructor
  · intro h
    induction h using Relation.ReflTransGen.head_induction_on with
    | refl => exact ⟨hr, refl r⟩
    | @head x p hp _ ih =>
        have hx : x ∉ S := fun hx => by simp [hin x hx] at hp
        exact ⟨hx, head (hout x hx ▸ hp) ih.2⟩
  · rintro ⟨hx, h⟩
    induction h using Relation.ReflTransGen.head_induction_on with
    | refl => exact refl r
    | @head x p hp _ ih =>
        exact head ((hout x hx).trans hp) (ih fun hc => hx (hclosed x p hp hc))

variable [DecidableEq α]

theorem link (h : Below parent x r) (hc : parent c = none) :
    Below (Function.update parent c (some p)) x r := by
  refine Relation.ReflTransGen.mono (fun y q hq => ?_) _ _ h
  rw [Function.update_of_ne]
  · exact hq
  · rintro rfl
    simp [hc] at hq

/-- A node without children is on no other way up. -/
theorem unlink (h : Below parent x r) (hc : ∀ y, parent y ≠ some c) (hx : x ≠ c) :
    Below (Function.update parent c none) x r := by
  induction h with
  | refl => exact refl x
  | @tail y q _ hq ih =>
      refine tail ih ?_
      rw [Function.update_of_ne]
      · exact hq
      · rintro rfl
        rename_i hxy
        exact hx (eq_of_leaf hxy hc)

theorem of_unlink (h : Below (Function.update parent c none) x r) : Below parent x r := by
  refine Relation.ReflTransGen.mono (fun y q hq => ?_) _ _ h
  by_cases hy : y = c
  · subst hy
    simp at hq
  · rwa [Function.update_of_ne hy] at hq

end Below

namespace Bounded

variable {m n : ℕ}

theorem mono (h : Bounded parent n x) (hn : n ≤ m) : Bounded parent m x := by
  induction n generalizing m x with
  | zero => exact h.elim
  | succ n ih =>
      obtain ⟨m, rfl⟩ : ∃ k, m = k + 1 := ⟨m - 1, by omega⟩
      obtain ⟨⟨xs, hlen, hxs⟩, hy⟩ := h
      exact ⟨⟨xs, by omega, hxs⟩, fun y hp => ih (hy y hp) (by omega)⟩

/-- Some nodes may have lost their parents. -/
theorem cut (h : Bounded parent n x) (hp : ∀ y p, parent' y = some p → parent y = some p) :
    Bounded parent' n x := by
  induction n generalizing x with
  | zero => exact h.elim
  | succ n ih =>
      obtain ⟨⟨xs, hlen, hxs⟩, hy⟩ := h
      exact ⟨⟨xs, hlen, fun y he => hxs y (hp y x he)⟩, fun y he => ih (hy y (hp y x he))⟩

theorem exists_bounded (hk : Ranked parent rank)
    (hfin : ∀ x, ∃ xs : List α, ∀ y, parent y = some x → y ∈ xs) (x : α) :
    ∃ n, Bounded parent n x := by
  induction hr : rank x using Nat.strong_induction_on generalizing x with
  | _ r ih =>
    subst hr
    obtain ⟨xs, hxs⟩ := hfin x
    have hall : ∃ n, xs.length ≤ n ∧ ∀ y ∈ xs, parent y = some x → Bounded parent n y := by
      clear hxs
      induction xs with
      | nil => exact ⟨0, le_rfl, by simp⟩
      | cons z xs ihxs =>
          obtain ⟨n, hlen, hn⟩ := ihxs
          obtain ⟨m, hm⟩ : ∃ m, parent z = some x → Bounded parent m z := by
            by_cases hz : parent z = some x
            · exact (ih (rank z) (hk z x hz) z rfl).imp fun _ h _ => h
            · exact ⟨0, fun hc => absurd hc hz⟩
          refine ⟨n + m + 1, by simp only [List.length_cons]; omega, fun y hy hp => ?_⟩
          rcases List.mem_cons.mp hy with rfl | hy
          · exact (hm hp).mono (by omega)
          · exact (hn y hy hp).mono (by omega)
    obtain ⟨n, hlen, hn⟩ := hall
    exact ⟨n + 1, ⟨xs, hlen, hxs⟩, fun y hp => hn y (hxs y hp) hp⟩

end Bounded

namespace Ranked

theorem ne (hk : Ranked parent rank) (hp : parent x = some p) : x ≠ p := by
  rintro rfl
  exact lt_irrefl _ (hk _ _ hp)

theorem not_below (hk : Ranked parent rank) (hp : parent x = some p) : ¬ Below parent p x :=
  fun h => by
    have h1 := h.rank_le hk
    have h2 := hk x p hp
    omega

/-- A node is below one child of a parent only. -/
theorem eq_of_siblings (hk : Ranked parent rank) (hx : parent x = some p) (hy : parent y = some p)
    (hbx : Below parent z x) (hby : Below parent z y) : x = y := by
  have hcomp : ∀ {a b : α}, parent a = some p → parent b = some p → Below parent a b → a = b := by
    intro a b ha hb h
    rcases Relation.ReflTransGen.cases_head h with he | ⟨q, hq, hqb⟩
    · exact he
    · obtain rfl := Option.some.inj (ha.symm.trans hq)
      exact absurd hqb (hk.not_below hb)
  induction hbx using Relation.ReflTransGen.head_induction_on with
  | refl => exact hcomp hx hy hby
  | @head z q hq hqx ih =>
      rcases Relation.ReflTransGen.cases_head hby with rfl | ⟨q', hq', hqy⟩
      · exact (hcomp hy hx (.head hq hqx)).symm
      · obtain rfl := Option.some.inj (hq.symm.trans hq')
        exact ih hqy

variable [DecidableEq α]

/-- A new node without children gets a rank below all the others. -/
theorem link (hk : Ranked parent rank) (hc : ∀ y, parent y ≠ some c) (hcp : c ≠ p) :
    Ranked (Function.update parent c (some p)) fun z => if z = c then 0 else rank z + 1 := by
  intro x q hq
  have hqc : q ≠ c := by
    rintro rfl
    by_cases hx : x = q
    · subst hx
      simp only [Function.update_self, Option.some.injEq] at hq
      exact hcp hq.symm
    · rw [Function.update_of_ne hx] at hq
      exact hc x hq
  by_cases hx : x = c
  · simp [hx, hqc]
  · rw [Function.update_of_ne hx] at hq
    have := hk x q hq
    simp only [hx, hqc, if_false]
    omega

theorem unlink (hk : Ranked parent rank) : Ranked (Function.update parent c none) rank := by
  intro x q hq
  by_cases hx : x = c
  · subst hx
    simp at hq
  · rw [Function.update_of_ne hx] at hq
    exact hk x q hq

end Ranked

namespace Nested

theorem subset (h : Nested parent points) (hx : Below parent x r) : points x ⊆ points r := by
  induction hx with
  | refl => exact subset_rfl
  | tail _ hp ih => exact ih.trans (h.inside _ _ hp)

/-- Two nodes of a tree with a common point. -/
theorem comparable (h : Nested parent points) (hx : Below parent x r) (hy : Below parent y r)
    (hbx : b ∈ points x) (hby : b ∈ points y) : Below parent x y ∨ Below parent y x := by
  induction hx using Relation.ReflTransGen.head_induction_on with
  | refl => exact Or.inr hy
  | @head x p hp _ ih =>
      rcases ih (h.inside _ _ hp hbx) with hpy | hyp
      · exact Or.inl (.head hp hpy)
      · rcases Relation.ReflTransGen.cases_tail hyp with rfl | ⟨c, hyc, hc⟩
        · exact Or.inl (.head hp (.refl _))
        · -- both are below a child of `p`, and the child with the point is unique
          obtain rfl := h.apart x c p b hp hc hbx (h.subset hyc hby)
          exact Or.inr hyc

/-- Two nodes without children and with a common point are the same. -/
theorem eq_of_leaves (h : Nested parent points) (hx : Below parent x r) (hy : Below parent y r)
    (hlx : ∀ z, parent z ≠ some x) (hly : ∀ z, parent z ≠ some y) (hbx : b ∈ points x)
    (hby : b ∈ points y) : x = y := by
  rcases h.comparable hx hy hbx hby with hc | hc
  · exact hc.eq_of_leaf hly
  · exact (hc.eq_of_leaf hlx).symm

end Nested

end Forest
