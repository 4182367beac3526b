import Tomato.Mem.Phys.Calls
import Tomato.Mem.Vmar.Children

/-!
# Placing a child

The place that `vmar_find_place` finds. A child that may lie anywhere gets the lowest range
with room, and one at a fixed offset gets this range if there is room.
-/

namespace Tomato

open RbTree Ranges

namespace Vmars

section

variable (v : Vmars)

/-- The base and the size of a vmar are other ones. -/
def setRange (vmar base pageCount : ℕ) : Vmars :=
  { v with
    base := Function.update v.base vmar base
    pageCount := Function.update v.pageCount vmar pageCount }

/-- The pages where a child may be put. -/
def Wanted (r offset n : ℕ) (xs : List ℕ) (page : ℕ) : Prop :=
  Fits v.vmarFirstPage v.pageEnd n (v.vmarFirstPage r) (v.pageEnd r) xs page ∧
    if offset = VMAR_ANY_OFFSET then
      ∀ q, Fits v.vmarFirstPage v.pageEnd n (v.vmarFirstPage r) (v.pageEnd r) xs q → page ≤ q
    else page * 4096 = v.base r + offset

end

variable {v v' : Vmars} {r c x y n b offset page : ℕ} {xs A B : List ℕ}

theorem vmarFirstPage_eq : v.vmarFirstPage x = v.base x / 4096 := by
  rw [vmarFirstPage, PAGE_SHIFT, Nat.shiftRight_eq_div_pow]

@[simp] theorem vmarFirstPage_setRange : (v.setRange c b n).vmarFirstPage c = b / 4096 := by
  simp [vmarFirstPage_eq, setRange]

@[simp] theorem pageEnd_setRange : (v.setRange c b n).pageEnd c = b / 4096 + n := by
  rw [pageEnd, vmarFirstPage_setRange]
  simp [setRange]

theorem setRange_of_ne (h : x ≠ c) : (v.setRange c b n).vmarFirstPage x = v.vmarFirstPage x ∧
    (v.setRange c b n).pageEnd x = v.pageEnd x := by
  simp [pageEnd, vmarFirstPage, setRange, h]

theorem fits_setRange {m : ℕ} (hc : c ∉ xs) (hne : c ≠ r) :
    Fits (v.setRange c b m).vmarFirstPage (v.setRange c b m).pageEnd n
      ((v.setRange c b m).vmarFirstPage r) ((v.setRange c b m).pageEnd r) xs page ↔
    Fits v.vmarFirstPage v.pageEnd n (v.vmarFirstPage r) (v.pageEnd r) xs page := by
  obtain ⟨h1, h2⟩ := setRange_of_ne (v := v) (b := b) (n := m) hne.symm
  have hxs : ∀ x ∈ xs, (v.setRange c b m).vmarFirstPage x = v.vmarFirstPage x ∧
      (v.setRange c b m).pageEnd x = v.pageEnd x := by
    refine fun x hx => setRange_of_ne ?_
    rintro rfl
    exact hc hx
  rw [Fits, Fits, h1, h2]
  refine and_congr_right fun _ => and_congr_right fun _ => forall₂_congr fun x hx => ?_
  rw [(hxs x hx).1, (hxs x hx).2]

namespace ChildrenOk

/-- A vmar that is no child gets another range. -/
theorem setRange (h : v.ChildrenOk r xs) (hc : c ∉ xs) (hne : c ≠ r) :
    (v.setRange c b n).ChildrenOk r xs := by
  refine h.congr ⟨rfl, rfl⟩ (fun z hz => ?_) fun z hz => ⟨rfl, rfl, rfl, rfl⟩
  have hzc : z ≠ c := by
    rintro rfl
    exact hz.elim hne hc
  exact ⟨Function.update_of_ne hzc _ _, Function.update_of_ne hzc _ _⟩

/-- The gap after the last child is the rest of the region. -/
theorem vmarTailGap_eq (h : v.ChildrenOk r xs) (hr : v.pageEnd r < 2 ^ 64) :
    v.vmarTailGap r = (v.pageEnd r - endOf v.pageEnd (v.vmarFirstPage r) xs,
      endOf v.pageEnd (v.vmarFirstPage r) xs) := by
  have hle := h.packed.endOf_le
  rw [vmarTailGap, last_eq, h.tree.toList, vmarEndPage_eq hr]
  cases hl : xs.getLast? with
  | none =>
    rw [endOf, hl] at hle ⊢
    exact congrArg (·, v.vmarFirstPage r) (sub64_eq hle.2 hr)
  | some p =>
    have hp := h.mem (List.mem_of_getLast? hl)
    rw [endOf, hl] at hle ⊢
    simp only [Option.map_some, Option.getD_some] at hle ⊢
    rw [vmarEndPage_eq (by omega), sub64_eq hle.2 hr]

/-- The search for a gap is the one for the lowest place in the list. -/
theorem vmarFindGap_eq (h : v.ChildrenOk r xs) (hr : v.pageEnd r < 2 ^ 64) :
    v.vmarFindGap r n =
      firstFit v.vmarFirstPage v.pageEnd v.gap n (v.vmarFirstPage r) (v.pageEnd r) xs := by
  have hlist := h.tree.toList
  have hfirst : ∀ x ∈ xs, sub64 (v.vmarFirstPage x) (v.gap x) = v.vmarFirstPage x - v.gap x := by
    intro x hx
    obtain ⟨A, B, rfl⟩ := List.append_of_mem hx
    have hg := (Gaps.append_cons_iff.mp h.gaps).2.1
    have hm := h.mem hx
    exact sub64_eq (by omega) (by omega)
  rw [vmarFindGap, findFirstFit_eq_find? (Promises.of_augOk h.tree.augOk), hlist, firstFit, h.vmarTailGap_eq hr]
  cases he : xs.find? fun x => decide (n ≤ v.gap x) with
  | none => rfl
  | some x => exact congrArg some (hfirst x (List.mem_of_find?_eq_some he))

/-- `vmar_check_in_parent` compares the ranges as numbers without bounds. -/
theorem vmarCheckInParent_eq (hr : v.pageEnd r < 2 ^ 64) : v.vmarCheckInParent r c =
    if v.vmarFirstPage r ≤ v.vmarFirstPage c ∧ v.pageEnd c ≤ v.pageEnd r then .ok ()
    else .error .internalError := by
  rw [vmarCheckInParent, vmarEndPage_eq hr]
  simp only [← pageEnd.eq_1 v c]
  by_cases h1 : 2 ^ 64 ≤ v.pageEnd c
  · rw [if_pos h1, if_neg (by omega)]
  by_cases h2 : v.vmarFirstPage c < v.vmarFirstPage r
  · rw [if_neg h1, if_pos h2, if_neg (by omega)]
  by_cases h3 : v.pageEnd r < v.pageEnd c
  · rw [if_neg h1, if_neg h2, if_pos h3, if_neg (by omega)]
  · rw [if_neg h1, if_neg h2, if_neg h3, if_pos (by omega)]

/-- A child that may lie anywhere. -/
theorem vmarFindPlace_any (h : v.ChildrenOk r xs) (hr : v.pageEnd r ≤ 2 ^ 52)
    (hc : c ∉ xs) (hne : c ≠ r) (hn : 0 < n) (hu : v.unmapped r = false) :
    ((v.vmarFindPlace r c VMAR_ANY_OFFSET n).1 = .error .internalError ∧
      (v.vmarFindPlace r c VMAR_ANY_OFFSET n).2 = v.setRange c (v.base c) n ∧
      ∀ page, ¬ v.Wanted r VMAR_ANY_OFFSET n xs page) ∨
    ∃ page, v.vmarFindPlace r c VMAR_ANY_OFFSET n = (.ok (), v.setRange c (page * 4096) n) ∧
      v.Wanted r VMAR_ANY_OFFSET n xs page := by
  obtain ⟨w, hw⟩ : ∃ w, w = v.setRange c (v.base c) n := ⟨_, rfl⟩
  have hrange : ({ v with pageCount := Function.update v.pageCount c n } : Vmars) = w := by
    simp [hw, Vmars.setRange]
  have hwr : w.pageEnd r < 2 ^ 64 := by
    rw [hw, (setRange_of_ne hne.symm).2]
    omega
  have hok : w.ChildrenOk r xs := hw ▸ h.setRange hc hne
  have hfits : ∀ q, Fits w.vmarFirstPage w.pageEnd n (w.vmarFirstPage r) (w.pageEnd r) xs q ↔
      Fits v.vmarFirstPage v.pageEnd n (v.vmarFirstPage r) (v.pageEnd r) xs q := fun q => by
    rw [hw]
    exact fits_setRange hc hne
  simp only [Vmars.vmarFindPlace, hu, Bool.false_eq_true, if_false, if_true, hrange,
    hok.vmarFindGap_eq hwr]
  cases he : firstFit w.vmarFirstPage w.pageEnd w.gap n (w.vmarFirstPage r) (w.pageEnd r) xs with
  | none =>
    refine Or.inl ⟨rfl, hw, fun page hp => ?_⟩
    exact not_fits_of_firstFit hok.packed hok.gaps he page ((hfits page).mpr hp.1)
  | some page =>
    obtain ⟨hfit, hleast⟩ := isLeast_firstFit hok.packed hok.gaps he
    have hfit' := (hfits page).mp hfit
    have hlt : page * 4096 < 2 ^ 64 := by
      have := hfit'.2.1
      omega
    refine Or.inr ⟨page, ?_, hfit', ?_⟩
    · simp only [setBase, hw, Vmars.setRange, PAGE_SHIFT, Nat.shiftLeft_eq, Nat.mod_eq_of_lt hlt,
        Function.update_idem]
    · rw [if_pos rfl]
      exact fun q hq => hleast ((hfits q).mpr hq)

/-- A child at a fixed offset. -/
theorem vmarFindPlace_fixed (h : v.ChildrenOk r xs) (hr : v.pageEnd r ≤ 2 ^ 52)
    (hbase : 4096 ∣ v.base r) (hc : c ∉ xs) (hne : c ≠ r) (hn : 0 < n)
    (hu : v.unmapped r = false) (hoff : offset ≠ VMAR_ANY_OFFSET) :
    ((v.vmarFindPlace r c offset n).1 = .error .internalError ∧
      (∃ b, (v.vmarFindPlace r c offset n).2 = v.setRange c b n) ∧
      ∀ page, ¬ v.Wanted r offset n xs page) ∨
    ∃ page, v.vmarFindPlace r c offset n = (.ok (), v.setRange c (page * 4096) n) ∧
      v.Wanted r offset n xs page := by
  have hrange : ({ v with pageCount := Function.update v.pageCount c n } : Vmars) =
      v.setRange c (v.base c) n := by simp [Vmars.setRange]
  simp only [Vmars.vmarFindPlace, hu, Bool.false_eq_true, if_false, hoff, hrange]
  by_cases hal : 4096 ∣ offset
  swap
  · rw [if_pos (by rwa [Ne, Phys.and_pageMask])]
    refine Or.inl ⟨rfl, ⟨_, rfl⟩, fun page hp => hal ?_⟩
    have := hp.2
    rw [if_neg hoff] at this
    omega
  rw [if_neg (by simpa [Phys.and_pageMask] using hal)]
  obtain ⟨page, hpage⟩ : ∃ page, v.base r + offset = page * 4096 := by
    obtain ⟨k, hk⟩ := dvd_add hbase hal
    exact ⟨k, by omega⟩
  have hunique : ∀ q, v.Wanted r offset n xs q → q = page := by
    intro q hq
    have := hq.2
    rw [if_neg hoff] at this
    omega
  rw [hpage]
  by_cases hover : 2 ^ 64 ≤ page * 4096
  · rw [if_pos hover]
    refine Or.inl ⟨rfl, ⟨_, rfl⟩, fun q hq => ?_⟩
    obtain rfl := hunique q hq
    have := hq.1.2.1
    omega
  rw [if_neg hover]
  obtain ⟨w, hw⟩ : ∃ w, w = v.setRange c (page * 4096) n := ⟨_, rfl⟩
  have hset : (v.setRange c (v.base c) n).setBase c (page * 4096) = w := by
    simp [hw, Vmars.setRange, setBase]
  have hwc : w.vmarFirstPage c = page ∧ w.pageEnd c = page + n := by
    rw [hw, vmarFirstPage_setRange, pageEnd_setRange, Nat.mul_div_cancel _ (by norm_num)]
    exact ⟨rfl, rfl⟩
  have hwr : w.vmarFirstPage r = v.vmarFirstPage r ∧ w.pageEnd r = v.pageEnd r :=
    hw ▸ setRange_of_ne hne.symm
  have hok : w.ChildrenOk r xs := hw ▸ h.setRange hc hne
  have hw64 : w.pageEnd r < 2 ^ 64 := by omega
  have hfits : v.Wanted r offset n xs page ↔ (w.vmarFirstPage r ≤ page ∧ page + n ≤ w.pageEnd r) ∧
      ∀ x ∈ xs, page + n ≤ w.vmarFirstPage x ∨ w.pageEnd x ≤ page := by
    rw [Wanted, if_neg hoff, ← fits_setRange (b := page * 4096) (m := n) hc hne, ← hw, Fits]
    simp only [hpage, and_true, and_assoc]
  rw [hset, vmarCheckInParent_eq hw64, hwc.1, hwc.2]
  by_cases hin : w.vmarFirstPage r ≤ page ∧ page + n ≤ w.pageEnd r
  swap
  · rw [if_neg hin]
    refine Or.inl ⟨rfl, ⟨_, hw⟩, fun q hq => hin ?_⟩
    obtain rfl := hunique q hq
    exact (hfits.mp hq).1
  rw [if_pos hin]
  have hfind := hok.find_eq_none_iff hw64 (show w.pageEnd c < 2 ^ 64 by omega)
    (show w.vmarFirstPage c < w.pageEnd c by omega)
  rw [hwc.1, hwc.2] at hfind
  simp only
  by_cases hnone : find (w.vmarCompareRanges c) (w.children r) = none
  · rw [if_pos hnone]
    exact Or.inr ⟨page, by rw [hw], hfits.mpr ⟨hin, hfind.mp hnone⟩⟩
  · rw [if_neg hnone]
    refine Or.inl ⟨rfl, ⟨_, hw⟩, fun q hq => hnone (hfind.mpr ?_)⟩
    obtain rfl := hunique q hq
    exact (hfits.mp hq).2

/-- The search for a place either finds the wanted one, or there is none. -/
theorem vmarFindPlace (h : v.ChildrenOk r xs) (hr : v.pageEnd r ≤ 2 ^ 52)
    (hbase : 4096 ∣ v.base r) (hc : c ∉ xs) (hne : c ≠ r) (hn : 0 < n) :
    (∃ b k, v.vmarFindPlace r c offset n = (.error .internalError, v.setRange c b k) ∧
      (v.unmapped r = false → ∀ page, ¬ v.Wanted r offset n xs page)) ∨
    ∃ page, v.vmarFindPlace r c offset n = (.ok (), v.setRange c (page * 4096) n) ∧
      v.unmapped r = false ∧ v.Wanted r offset n xs page := by
  by_cases hu : v.unmapped r
  · refine Or.inl ⟨v.base c, v.pageCount c, ?_, by simp [hu]⟩
    rw [Vmars.vmarFindPlace, if_pos hu]
    simp [Vmars.setRange]
  have hu' : v.unmapped r = false := by simpa using hu
  by_cases hoff : offset = VMAR_ANY_OFFSET
  · subst hoff
    rcases h.vmarFindPlace_any hr hc hne hn hu' with ⟨h1, h2, h3⟩ | ⟨page, h1, h2⟩
    · exact Or.inl ⟨_, _, Prod.ext h1 h2, fun _ => h3⟩
    · exact Or.inr ⟨page, h1, hu', h2⟩
  · rcases h.vmarFindPlace_fixed hr hbase hc hne hn hu' hoff with ⟨h1, ⟨b, h2⟩, h3⟩ | ⟨page, h1, h2⟩
    · exact Or.inl ⟨_, _, Prod.ext h1 h2, fun _ => h3⟩
    · exact Or.inr ⟨page, h1, hu', h2⟩

end ChildrenOk

end Vmars

end Tomato
