import Mathlib.Tactic

/-!
# Ranges in order

Nodes with ranges that lie one after another inside of an outer range, the gaps before
them, and the search for the lowest place with enough room.
-/

namespace Ranges

variable {α : Type*}

section

variable (lo hi : α → ℕ)

/-- The ranges are not empty, and follow one another between `a` and `b`. -/
def Packed : ℕ → ℕ → List α → Prop
  | a, b, [] => a ≤ b
  | a, b, x :: xs => a ≤ lo x ∧ lo x < hi x ∧ Packed (hi x) b xs

/-- The end of the last range, or `a` if there is none. -/
def endOf (a : ℕ) (xs : List α) : ℕ := (xs.getLast?.map hi).getD a

/-- The value of `gap` is the room before each node. -/
def Gaps (gap : α → ℕ) : ℕ → List α → Prop
  | _, [] => True
  | a, x :: xs => gap x = lo x - a ∧ Gaps gap (hi x) xs

/-- The free places between `a` and `b`. -/
def free (a b : ℕ) (xs : List α) : Set ℕ := {p | p ∈ Set.Ico a b ∧ ∀ x ∈ xs, p ∉ Set.Ico (lo x) (hi x)}

/-- There is room for `n` places from `q` on. -/
def Fits (n a b : ℕ) (xs : List α) (q : ℕ) : Prop :=
  a ≤ q ∧ q + n ≤ b ∧ ∀ x ∈ xs, q + n ≤ lo x ∨ hi x ≤ q

/-- The place before the first node with enough room, or else the one after the last. -/
def firstFit (gap : α → ℕ) (n a b : ℕ) (xs : List α) : Option ℕ :=
  match xs.find? fun x => decide (n ≤ gap x) with
  | some x => some (lo x - gap x)
  | none => if n ≤ b - endOf hi a xs then some (endOf hi a xs) else none

end

variable {lo hi lo' hi' gap gap' : α → ℕ} {a a' b b' c n q p : ℕ} {xs ys A B : List α} {x y : α}

@[simp] theorem endOf_nil : endOf hi a [] = a := rfl

@[simp] theorem endOf_cons : endOf hi a (x :: xs) = endOf hi (hi x) xs := by
  cases xs with
  | nil => rfl
  | cons y ys =>
    rw [endOf, endOf, List.getLast?_cons_cons]
    cases h : (y :: ys).getLast? with
    | none => simp at h
    | some z => rfl

theorem endOf_append_cons : endOf hi a (A ++ x :: B) = endOf hi (hi x) B := by
  induction A generalizing a with
  | nil => simp
  | cons y ys ih => simp [ih]

namespace Packed

theorem le (h : Packed lo hi a b xs) : a ≤ b := by
  induction xs generalizing a with
  | nil => exact h
  | cons x xs ih =>
      obtain ⟨h1, h2, h3⟩ := h
      have := ih h3
      omega

theorem mono_left (h : Packed lo hi a b xs) (ha : a' ≤ a) : Packed lo hi a' b xs := by
  cases xs with
  | nil => exact ha.trans h
  | cons x xs => exact ⟨ha.trans h.1, h.2⟩

theorem congr (h : Packed lo hi a b xs) (hl : ∀ x ∈ xs, lo' x = lo x)
    (hh : ∀ x ∈ xs, hi' x = hi x) : Packed lo' hi' a b xs := by
  induction xs generalizing a with
  | nil => exact h
  | cons x xs ih =>
      simp only [List.mem_cons, forall_eq_or_imp] at hl hh
      rw [Packed, hl.1, hh.1]
      exact ⟨h.1, h.2.1, ih h.2.2 hl.2 hh.2⟩

theorem mem (h : Packed lo hi a b xs) (hx : x ∈ xs) : a ≤ lo x ∧ lo x < hi x ∧ hi x ≤ b := by
  induction xs generalizing a with
  | nil => simp at hx
  | cons y ys ih =>
      obtain ⟨h1, h2, h3⟩ := h
      rcases List.mem_cons.mp hx with rfl | hx
      · exact ⟨h1, h2, h3.le⟩
      · have := ih h3 hx
        omega

theorem pairwise (h : Packed lo hi a b xs) : xs.Pairwise fun x y => hi x ≤ lo y := by
  induction xs generalizing a with
  | nil => exact .nil
  | cons x xs ih => exact .cons (fun y hy => (h.2.2.mem hy).1) (ih h.2.2)

theorem nodup (h : Packed lo hi a b xs) : xs.Nodup := by
  have hpos : ∀ x ∈ xs, lo x < hi x := fun x hx => (h.mem hx).2.1
  refine List.Pairwise.imp_of_mem (fun {x y} hx _ hle => ?_) h.pairwise
  rintro rfl
  have := hpos x hx
  omega

/-- Two ranges that meet are the same. -/
theorem eq_of_mem (h : Packed lo hi a b xs) (hx : x ∈ xs) (hy : y ∈ xs)
    (hpx : p ∈ Set.Ico (lo x) (hi x)) (hpy : p ∈ Set.Ico (lo y) (hi y)) : x = y := by
  induction xs generalizing a with
  | nil => simp at hx
  | cons z zs ih =>
      have hlater : ∀ w ∈ zs, hi z ≤ lo w := fun w hw => (h.2.2.mem hw).1
      simp only [Set.mem_Ico] at hpx hpy
      rcases List.mem_cons.mp hx with rfl | hx' <;> rcases List.mem_cons.mp hy with rfl | hy'
      · rfl
      · have := hlater y hy'
        omega
      · have := hlater x hx'
        omega
      · exact ih h.2.2 hx' hy'

/-- The order of the ranges is that of their places. -/
theorem eq_of_mem_iff (h : Packed lo hi a b xs) (h' : Packed lo hi a' b' ys)
    (hmem : ∀ x, x ∈ xs ↔ x ∈ ys) : xs = ys := by
  refine List.Perm.eq_of_pairwise (fun x y hx hy h1 h2 => ?_) h.pairwise h'.pairwise
    ((List.perm_ext_iff_of_nodup h.nodup h'.nodup).mpr hmem)
  have hx' := h.mem hx
  have hy' := h'.mem hy
  omega

theorem append_iff : Packed lo hi a b (A ++ x :: B) ↔
    Packed lo hi a (lo x) A ∧ lo x < hi x ∧ Packed lo hi (hi x) b B := by
  induction A generalizing a with
  | nil => rfl
  | cons y ys ih => simp only [List.cons_append, Packed, ih, and_assoc]

theorem append (hA : Packed lo hi a c A) (hB : Packed lo hi c b B) :
    Packed lo hi a b (A ++ B) := by
  induction A generalizing a with
  | nil => exact hB.mono_left hA
  | cons y ys ih => exact ⟨hA.1, hA.2.1, ih hA.2.2⟩

/-- The ranges before a place end before it. -/
theorem left (h : Packed lo hi a b (A ++ B)) (hc : a ≤ c) (hA : ∀ x ∈ A, hi x ≤ c) :
    Packed lo hi a c A := by
  induction A generalizing a with
  | nil => exact hc
  | cons y ys ih =>
      simp only [List.mem_cons, forall_eq_or_imp] at hA
      exact ⟨h.1, h.2.1, ih h.2.2 hA.1 hA.2⟩

theorem right (h : Packed lo hi a b (A ++ B)) (hc : c ≤ b) (hB : ∀ x ∈ B, c ≤ lo x) :
    Packed lo hi c b B := by
  induction A generalizing a with
  | nil =>
      cases B with
      | nil => exact hc
      | cons y ys => exact ⟨hB y (by simp), h.2⟩
  | cons y ys ih => exact ih h.2.2

/-- A new range between the ones that are before and after it. -/
theorem insert (h : Packed lo hi a b (A ++ B)) (hx : a ≤ lo x ∧ lo x < hi x ∧ hi x ≤ b)
    (hA : ∀ y ∈ A, hi y ≤ lo x) (hB : ∀ y ∈ B, hi x ≤ lo y) : Packed lo hi a b (A ++ x :: B) :=
  append_iff.mpr ⟨h.left hx.1 hA, hx.2.1, h.right hx.2.2 hB⟩

theorem remove (h : Packed lo hi a b (A ++ x :: B)) : Packed lo hi a b (A ++ B) := by
  obtain ⟨h1, h2, h3⟩ := append_iff.mp h
  exact h1.append (h3.mono_left h2.le)

theorem endOf_le (h : Packed lo hi a b xs) : a ≤ endOf hi a xs ∧ endOf hi a xs ≤ b := by
  induction xs generalizing a with
  | nil => exact ⟨le_rfl, h⟩
  | cons x xs ih =>
      obtain ⟨h1, h2, h3⟩ := h
      have := ih h3
      rw [endOf_cons]
      omega

end Packed

namespace Gaps

theorem congr (h : Gaps lo hi gap a xs) (hl : ∀ x ∈ xs, lo' x = lo x)
    (hh : ∀ x ∈ xs, hi' x = hi x) (hg : ∀ x ∈ xs, gap' x = gap x) : Gaps lo' hi' gap' a xs := by
  induction xs generalizing a with
  | nil => trivial
  | cons x xs ih =>
      simp only [List.mem_cons, forall_eq_or_imp] at hl hh hg
      rw [Gaps, hl.1, hh.1, hg.1]
      exact ⟨h.1, ih h.2 hl.2 hh.2 hg.2⟩

theorem append_iff : Gaps lo hi gap a (A ++ B) ↔
    Gaps lo hi gap a A ∧ Gaps lo hi gap (endOf hi a A) B := by
  induction A generalizing a with
  | nil => simp [Gaps]
  | cons y ys ih => simp [Gaps, ih, and_assoc]

theorem append_cons_iff : Gaps lo hi gap a (A ++ x :: B) ↔
    Gaps lo hi gap a A ∧ gap x = lo x - endOf hi a A ∧ Gaps lo hi gap (hi x) B := append_iff

end Gaps

/-- There is room where all the places are free. -/
theorem fits_iff (h : Packed lo hi a b xs) (hn : 0 < n) :
    Fits lo hi n a b xs q ↔ Set.Ico q (q + n) ⊆ free lo hi a b xs := by
  constructor
  · rintro ⟨h1, h2, h3⟩ p ⟨hp1, hp2⟩
    refine ⟨⟨by omega, by omega⟩, fun x hx hc => ?_⟩
    have := h3 x hx
    simp only [Set.mem_Ico] at hc
    omega
  · intro hsub
    have hfirst := (hsub (show q ∈ Set.Ico q (q + n) from ⟨le_rfl, by omega⟩)).1
    have hlast := (hsub (show q + n - 1 ∈ Set.Ico q (q + n) from ⟨by omega, by omega⟩)).1
    simp only [Set.mem_Ico] at hfirst hlast
    refine ⟨hfirst.1, by omega, fun x hx => ?_⟩
    by_contra hc
    have hpos := (h.mem hx).2.1
    -- the ranges meet at the larger of their beginnings
    refine (hsub (show max q (lo x) ∈ Set.Ico q (q + n) from ⟨?_, ?_⟩)).2 x hx ⟨?_, ?_⟩ <;> omega

theorem fits_cons (hx : lo x - a < n) (h : Packed lo hi a b (x :: xs)) :
    Fits lo hi n a b (x :: xs) q ↔ Fits lo hi n (hi x) b xs q := by
  obtain ⟨h1, h2, h3⟩ := h
  simp only [Fits, List.mem_cons, forall_eq_or_imp]
  constructor
  · rintro ⟨ha, hb, hor, hxs⟩
    exact ⟨by omega, hb, hxs⟩
  · rintro ⟨ha, hb, hxs⟩
    exact ⟨by omega, hb, Or.inr ha, hxs⟩

theorem firstFit_nil :
    firstFit lo hi gap n a b [] = if n ≤ b - a then some a else none := rfl

theorem firstFit_cons (hx : gap x < n) :
    firstFit lo hi gap n a b (x :: xs) = firstFit lo hi gap n (hi x) b xs := by
  simp only [firstFit, List.find?_cons, Nat.not_le.mpr hx, decide_false, endOf_cons]

theorem firstFit_first (hx : n ≤ gap x) :
    firstFit lo hi gap n a b (x :: xs) = some (lo x - gap x) := by
  simp only [firstFit, List.find?_cons, hx, decide_true]

/-- The search finds the lowest place with room. -/
theorem isLeast_firstFit (h : Packed lo hi a b xs) (hg : Gaps lo hi gap a xs)
    (he : firstFit lo hi gap n a b xs = some p) : IsLeast {q | Fits lo hi n a b xs q} p := by
  induction xs generalizing a with
  | nil =>
      rw [firstFit_nil, Option.ite_none_right_eq_some, Option.some.injEq] at he
      obtain ⟨hle, rfl⟩ := he
      have hab : a ≤ b := h
      exact ⟨⟨le_rfl, by omega, by simp⟩, fun q hq => hq.1⟩
  | cons x xs ih =>
      obtain ⟨h1, h2, h3⟩ := h
      obtain ⟨hgx, hgs⟩ := hg
      by_cases hx : n ≤ gap x
      · rw [firstFit_first hx, Option.some.injEq] at he
        obtain rfl : a = p := by omega
        refine ⟨⟨le_rfl, ?_, ?_⟩, fun q hq => hq.1⟩
        · have := h3.le
          omega
        · simp only [List.mem_cons, forall_eq_or_imp]
          refine ⟨Or.inl (by omega), fun y hy => Or.inl ?_⟩
          have := (h3.mem hy).1
          omega
      · have hlt : gap x < n := Nat.not_le.mp hx
        have hset : {q | Fits lo hi n a b (x :: xs) q} = {q | Fits lo hi n (hi x) b xs q} :=
          Set.ext fun q => fits_cons (hgx ▸ hlt) ⟨h1, h2, h3⟩
        rw [firstFit_cons hlt] at he
        rw [hset]
        exact ih h3 hgs he

/-- The search fails only where there is no room. -/
theorem not_fits_of_firstFit (h : Packed lo hi a b xs) (hg : Gaps lo hi gap a xs)
    (he : firstFit lo hi gap n a b xs = none) (q : ℕ) : ¬ Fits lo hi n a b xs q := by
  induction xs generalizing a with
  | nil =>
      rw [firstFit_nil, ite_eq_right_iff] at he
      rintro ⟨h1, h2, -⟩
      exact absurd (he (by omega)) (by simp)
  | cons x xs ih =>
      by_cases hx : n ≤ gap x
      · simp [firstFit_first hx] at he
      · have hlt : gap x < n := Nat.not_le.mp hx
        rw [firstFit_cons hlt] at he
        rw [fits_cons (hg.1 ▸ hlt) h]
        exact ih h.2.2 hg.2 he

/-- The range of a node that is taken out becomes free, and nothing else. -/
theorem free_remove (h : Packed lo hi a b (A ++ x :: B)) :
    free lo hi a b (A ++ B) = free lo hi a b (A ++ x :: B) ∪ Set.Ico (lo x) (hi x) := by
  have hb := h.mem (show x ∈ A ++ x :: B by simp)
  ext p
  simp only [free, Set.mem_union, Set.mem_setOf_eq, List.mem_append, List.mem_cons]
  constructor
  · rintro ⟨hp, hfree⟩
    by_cases hpx : p ∈ Set.Ico (lo x) (hi x)
    · exact Or.inr hpx
    · refine Or.inl ⟨hp, fun y hy => ?_⟩
      rcases hy with hy | rfl | hy
      · exact hfree y (Or.inl hy)
      · exact hpx
      · exact hfree y (Or.inr hy)
  · rintro (⟨hp, hfree⟩ | hpx)
    · exact ⟨hp, fun y hy => hfree y (hy.imp id Or.inr)⟩
    · have hnd := h.nodup
      refine ⟨⟨hb.1.trans hpx.1, hpx.2.trans_le hb.2.2⟩, fun y hy hpy => ?_⟩
      have hmem : y ∈ A ++ x :: B := by
        simp only [List.mem_append, List.mem_cons]
        tauto
      obtain rfl := h.eq_of_mem hmem (by simp) hpy hpx
      exact (List.nodup_cons.mp (List.nodup_middle.mp hnd)).1 (List.mem_append.mpr hy)

end Ranges
