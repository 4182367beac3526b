import Tomato.Mem.Phys.Pages

/-!
# Adding memory

`phys_add_memory` cuts the range into the largest aligned blocks that fit and
frees them one by one. The loop never runs out of levels, because a range of
whole pages always starts with a page, and for the same reason it never adds a
piece of a page.
-/

namespace Tomato

open Blocks

namespace Phys

variable {d : DirectMap} {s : Phys} {fl : FreeLists} {live : Set Block} {M : Set ℕ}
  {start end_ level : ℕ}

theorem and_blockSize_sub_one (addr l : ℕ) :
    addr &&& (blockSize l - 1) = 0 ↔ 2 ^ (l + 6) ∣ addr := by
  rw [blockSize_eq, Nat.and_two_pow_sub_one_eq_mod, Nat.dvd_iff_mod_eq_zero]

/-- The level that the search returns fits, and no larger level below `n` does. -/
theorem bestLevelBelow_spec {n i : ℕ} (hno : end_ + 2 ^ 21 ≤ 2 ^ 64) (hn : n ≤ 16) (hi : i < n)
    (hdvd : 2 ^ (i + 6) ∣ start) (hfit : start + 2 ^ (i + 6) ≤ end_) :
    ∃ l, bestLevelBelow start end_ n = some l ∧ i ≤ l ∧ l < n ∧ 2 ^ (l + 6) ∣ start ∧
      start + 2 ^ (l + 6) ≤ end_ := by
  induction n with
  | zero => omega
  | succ n ih =>
      have hpow : 2 ^ (n + 6) ≤ 2 ^ 21 := Nat.pow_le_pow_right (by omega) (by omega)
      have hpos : 0 < 2 ^ (i + 6) := Nat.two_pow_pos _
      have hmod : (start + blockSize n) % 2 ^ 64 = start + 2 ^ (n + 6) := by
        rw [blockSize_eq]
        exact Nat.mod_eq_of_lt (by omega)
      rw [bestLevelBelow]
      simp only [hmod, and_blockSize_sub_one]
      by_cases hgood : start + 2 ^ (n + 6) ≤ end_ ∧ 2 ^ (n + 6) ∣ start
      · exact ⟨n, by rw [if_neg (by omega), if_pos hgood.2], by omega, by omega, hgood.2, hgood.1⟩
      · have hne : i ≠ n := by
          rintro rfl
          exact hgood ⟨hfit, hdvd⟩
        obtain ⟨l, h1, h2, h3, h4⟩ := ih (by omega) (by omega)
        refine ⟨l, ?_, h2, by omega, h4⟩
        rw [h1]
        split
        · rfl
        · rw [if_neg fun hd => hgood ⟨by omega, hd⟩]

theorem getBestLevelForBlock_spec (hno : end_ + 2 ^ 21 ≤ 2 ^ 64) (hs : 4096 ∣ start)
    (he : 4096 ∣ end_) (hlt : start < end_) :
    ∃ l, getBestLevelForBlock start end_ = some l ∧ 6 ≤ l ∧ l < 16 ∧ 2 ^ (l + 6) ∣ start ∧
      start + 2 ^ (l + 6) ≤ end_ := by
  refine bestLevelBelow_spec hno le_rfl (i := 6) (by decide) hs ?_
  obtain ⟨x, rfl⟩ := hs
  obtain ⟨y, rfl⟩ := he
  omega

theorem block_cells (p l : ℕ) : (block p l).cells = Set.Ico p (p + 2 ^ (l + 6)) := rfl

/-- One turn of the loop of `phys_add_memory`. The rest of the range stays zero. -/
theorem addBlock_spec (hno : end_ + 2 ^ 21 ≤ 2 ^ 64) (hs : 4096 ∣ start) (he : 4096 ∣ end_)
    (hlt : start < end_) (h : Inv d s fl live ∅ M) (hM : Disjoint (Set.Ico start end_) M)
    (hr : Set.Ico start end_ ⊆ d.range) (hz : ∀ a ∈ Set.Ico start end_, s.mem a = 0) :
    ∃ l L s' fl', getBestLevelForBlock start end_ = some l ∧
      physFreeInternal d s start l false = some (L, s') ∧ 6 ≤ l ∧ (block start l).Aligned ∧
      start + 2 ^ (l + 6) ≤ end_ ∧ 2 ^ (l + 6) = 4096 * 2 ^ (l - 6) ∧
      Freed d s s' fl fl' live (M ∪ (block start l).cells) start l L ∧
      Disjoint (Set.Ico (start + 2 ^ (l + 6)) end_) (M ∪ (block start l).cells) ∧
      ∀ a ∈ Set.Ico (start + 2 ^ (l + 6)) end_, s'.mem a = 0 := by
  obtain ⟨l, e, h6, h16, hdvd, hfit⟩ := getBestLevelForBlock_spec hno hs he hlt
  have hpos : 0 < 2 ^ (l + 6) := Nat.two_pow_pos _
  have hpage : 2 ^ (l + 6) = 4096 * 2 ^ (l - 6) := by
    rw [show l + 6 = 12 + (l - 6) by omega, pow_add]
    rfl
  have hsub : (block start l).cells ⊆ Set.Ico start end_ := fun a ha =>
    ⟨ha.1, lt_of_lt_of_le ha.2 hfit⟩
  have h1 := h.addFloat (b := block start l) hdvd (hM.mono_left hsub) (hsub.trans hr)
    ⟨l, h16, rfl⟩
  rw [Set.empty_union] at h1
  obtain ⟨L, s1, fl1, e1, hf⟩ := physFreeInternal_new_spec h16 h1 fun a ha => hz a (hsub ha)
  have hrest : ∀ a ∈ Set.Ico (start + 2 ^ (l + 6)) end_, a ∈ Set.Ico start end_ ∧
      a ∉ freeCells fl ∪ (block start l).cells := by
    intro a ha
    have ha' : a ∈ Set.Ico start end_ := ⟨by have := ha.1; omega, ha.2⟩
    refine ⟨ha', ?_⟩
    rintro (hfa | hfa)
    · exact Set.disjoint_left.mp hM ha' (h.freeCells_subset hfa)
    · exact absurd hfa.2 (not_lt.mpr ha.1)
  refine ⟨l, L, s1, fl1, e, e1, h6, hdvd, hfit, hpage, hf, ?_, ?_⟩
  · rw [Set.disjoint_union_right]
    refine ⟨hM.mono_left fun a ha => (hrest a ha).1, ?_⟩
    rw [Set.disjoint_left]
    exact fun a ha hb => (hrest a ha).2 (Or.inr hb)
  · intro a ha
    rw [hf.frame a (hrest a ha).2 fun k hk hak => Inv.head_notMem_range hk
      (by rw [← hak]; exact hr (hrest a ha).1)]
    exact hz a (hrest a ha).1

/-- The loop of `phys_add_memory`. -/
theorem addBlocks_spec (hno : end_ + 2 ^ 21 ≤ 2 ^ 64) (hs : 4096 ∣ start) (he : 4096 ∣ end_)
    (hle : start ≤ end_) (h : Inv d s fl live ∅ M) (hM : Disjoint (Set.Ico start end_) M)
    (hr : Set.Ico start end_ ⊆ d.range) (hz : ∀ a ∈ Set.Ico start end_, s.mem a = 0) :
    ∃ s' fl', addBlocks d start end_ s = some s' ∧
      Inv d s' fl' live ∅ (M ∪ Set.Ico start end_) ∧ s'.acct = s.acct ∧
      freePages fl' = freePages fl + (end_ - start) / 4096 ∧
      Frame d (freeCells fl ∪ Set.Ico start end_) s.mem s'.mem := by
  obtain ⟨n, hn⟩ : ∃ n, n = end_ - start := ⟨_, rfl⟩
  induction n using Nat.strong_induction_on generalizing start s fl M with
  | _ n ih =>
    rw [addBlocks]
    by_cases hlt : start < end_
    · rw [dif_pos hlt]
      obtain ⟨l, L, s1, fl1, e, e1, h6, -, hfit, hpage, hf, hM1, hz1⟩ :=
        addBlock_spec hno hs he hlt h hM hr hz
      have hpos : 0 < 2 ^ (l + 6) := Nat.two_pow_pos _
      have hsub : (block start l).cells ⊆ Set.Ico start end_ := fun a ha =>
        ⟨ha.1, lt_of_lt_of_le ha.2 hfit⟩
      have hsplit : Set.Ico start end_ =
          (block start l).cells ∪ Set.Ico (start + 2 ^ (l + 6)) end_ := by
        rw [block_cells, Set.Ico_union_Ico_eq_Ico (by omega) hfit]
      have hr1 : Set.Ico (start + 2 ^ (l + 6)) end_ ⊆ d.range := by
        rw [hsplit] at hr
        exact Set.subset_union_right.trans hr
      obtain ⟨s2, fl2, e2, i1, i2, i3, i4⟩ := ih (end_ - (start + 2 ^ (l + 6))) (by omega)
        (hs.add ⟨2 ^ (l - 6), hpage⟩) hfit hf.inv hM1 hr1 hz1 rfl
      refine ⟨s2, fl2, ?_, ?_, i2.trans hf.acct, ?_, ?_⟩
      · rw [e, Option.bind_some, e1, Option.bind_some, blockSize_eq]
        exact e2
      · rw [hsplit, ← Set.union_assoc]
        exact i1
      · rw [i3, hf.freePages, commitCount, if_pos h6]
        omega
      · refine (hf.frame.mono ?_).trans (i4.mono ?_)
        · exact Set.union_subset_union_right _ hsub
        · rw [hsplit, ← Set.union_assoc]
          exact Set.union_subset_union_left _ hf.freeCells
    · rw [dif_neg hlt]
      have hempty : Set.Ico start end_ = ∅ := Set.Ico_eq_empty hlt
      refine ⟨s, fl, rfl, ?_, rfl, ?_, Frame.refl _ _⟩
      · rw [hempty, Set.union_empty]
        exact h
      · rw [show end_ - start = 0 by omega]
        simp

end Phys

end Tomato
