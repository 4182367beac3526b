import Tomato.Mem.Vmar.Invariant

/-!
# A new child

What `vmar_allocate_static` and `vmar_link` do to the tree. The child gets the wanted place
if there is one, and the list of the children gets the new one in its order.
-/

namespace Tomato

open RbTree Ranges Forest

namespace Vmars

/-- The vmar `c` is the child of `r` at the page, and nothing else changes but the links and
the gaps of its siblings. -/
structure Linked (v v' : Vmars) (r c page n : ℕ) : Prop where
  list : ∃ A B, v.ChildrenOk r (A ++ B) ∧ v'.ChildrenOk r (A ++ c :: B) ∧
    ∀ x, x ∈ A ++ B ↔ v.parent x = some r
  base : v'.base = Function.update v.base c (page * 4096)
  pageCount : v'.pageCount = Function.update v.pageCount c n
  parent : v'.parent = Function.update v.parent c (some r)
  refCount : v'.refCount = v.refCount
  kind : v'.kind = v.kind
  unmapped : v'.unmapped = v.unmapped
  locked : v'.locked = v.locked
  pageTableLock : v'.pageTableLock = v.pageTableLock
  children : ∀ r', r' ≠ r → v'.children r' = v.children r' ∧ v'.leftmost r' = v.leftmost r'
  node : ∀ z, z ≠ c → v.parent z ≠ some r → v'.gap z = v.gap z ∧ v'.maxGap z = v.maxGap z ∧
    v'.prev z = v.prev z ∧ v'.next z = v.next z

variable {v v' : Vmars} {roots : Set ℕ} {r c n offset page : ℕ} {xs : List ℕ}

namespace VmarsOk

/-- A vmar outside of the tree gets a range. -/
theorem setRange {b : ℕ} (h : VmarsOk roots v) (hc : ¬ v.InTree roots c) :
    VmarsOk roots (v.setRange c b n) := by
  obtain ⟨hch, hl⟩ := h.children_eq_nil (h.leaf hc)
  refine h.outside sameBut_setRange hc ?_ hch hl
  by_contra hne
  exact hc (Or.inr hne)

/-- There is room for a vmar at the page, and it is linked. -/
theorem link (h : VmarsOk roots v) (hr : v.InTree roots r) (hkind : v.kind r = .region)
    (hc : ¬ v.InTree roots c) (hu : v.unmapped c = false) (hn : 0 < n) (hok : v.ChildrenOk r xs)
    (hxs : ∀ x, x ∈ xs ↔ v.parent x = some r)
    (hfit : Fits v.vmarFirstPage v.pageEnd n (v.vmarFirstPage r) (v.pageEnd r) xs page) :
    ∃ v', (v.setRange c (page * 4096) n).vmarLinkInternal r c = some v' ∧
      Linked v v' r c page n ∧ VmarsOk roots v' := by
  have hcr : c ≠ r := by
    rintro rfl
    exact hc hr
  have hcx : c ∉ xs := fun hm => hc (Or.inr (by simp [(hxs c).mp hm]))
  obtain ⟨hr1, hr2⟩ := setRange_of_ne (v := v) (b := page * 4096) (n := n) hcr.symm
  have hdiv : page * 4096 / 4096 = page := Nat.mul_div_cancel _ (by norm_num)
  have hin : Inside (v.setRange c (page * 4096) n) r c := by
    rw [Inside, vmarFirstPage_setRange, pageEnd_setRange, hr1, hr2, hdiv]
    exact ⟨hfit.1, by omega, hfit.2.1⟩
  rcases (h.setRange (n := n) (b := page * 4096) hc).vmarLinkInternal hr hkind hc hu hin
    (by simp [Vmars.setRange]) (hok.setRange hcx hcr) hxs with
    ⟨-, y, hy, hno⟩ | ⟨A, B, v', rfl, e, hok', h', hrel, hpar, hunm⟩
  · refine absurd ?_ hno
    have hyc : y ≠ c := by
      rintro rfl
      exact hcx hy
    rw [vmarFirstPage_setRange, pageEnd_setRange, (setRange_of_ne hyc).1, (setRange_of_ne hyc).2,
      hdiv]
    exact hfit.2.2 y hy
  · refine ⟨v', e, ⟨⟨A, B, hok, h', hxs⟩, hrel.base, hrel.pageCount, hpar, hrel.refCount,
      hrel.kind, hunm, hrel.locked, hrel.pageTableLock, hrel.children, fun z hz hp => ?_⟩, hok'⟩
    refine hrel.node z fun hm => hp ((hxs z).mp ?_)
    simpa [hz] using hm

/-- Either there is no place for the child, or it can be linked at the place that was found. -/
theorem vmarFindPlace (h : VmarsOk roots v) (offset : ℕ) (hr : v.InTree roots r ∨ v.unmapped r = true)
    (hkind : v.kind r = .region) (hc : ¬ v.InTree roots c) (hcr : c ≠ r)
    (hu : v.unmapped c = false) (hn : 0 < n) (hok : v.ChildrenOk r xs)
    (hxs : ∀ x, x ∈ xs ↔ v.parent x = some r) :
    (∃ b m, v.vmarFindPlace r c offset n = (.error .internalError, v.setRange c b m) ∧
      (v.unmapped r = false → ∀ page, ¬ v.Wanted r offset n xs page)) ∨
    ∃ page v', v.vmarFindPlace r c offset n = (.ok (), v.setRange c (page * 4096) n) ∧
      v.unmapped r = false ∧ v.Wanted r offset n xs page ∧
      (v.setRange c (page * 4096) n).vmarLinkInternal r c = some v' ∧
      Linked v v' r c page n ∧ VmarsOk roots v' := by
  have hcx : c ∉ xs := fun hm => hc (Or.inr (by simp [(hxs c).mp hm]))
  by_cases hur : v.unmapped r = true
  · refine Or.inl ⟨v.base c, v.pageCount c, ?_, by simp [hur]⟩
    simp [Vmars.vmarFindPlace, hur, Vmars.setRange]
  have hrt := hr.resolve_right hur
  obtain ⟨hb, hd⟩ := h.bound r hrt
  rcases hok.vmarFindPlace hb hd hcx hcr hn with hno | ⟨page, e, hu', hw⟩
  · exact Or.inl hno
  · obtain ⟨v', e', hl, h'⟩ := h.link hrt hkind hc hu hn hok hxs hw.1
    exact Or.inr ⟨page, v', e, hu', hw, e', hl, h'⟩

/-- `vmar_allocate_static` either fails, or it links the child at the wanted place. -/
theorem vmarAllocateStatic (h : VmarsOk roots v) (offset n : ℕ)
    (hr : v.InTree roots r ∨ v.unmapped r = true)
    (hc : ¬ v.InTree roots c) (hcr : c ≠ r) (hu : v.unmapped c = false) (hok : v.ChildrenOk r xs)
    (hxs : ∀ x, x ∈ xs ↔ v.parent x = some r) :
    (∃ e b m, v.vmarAllocateStatic r c offset n = some (.error e, v.setRange c b m) ∧
      (v.kind r = .region → 0 < n → v.unmapped r = false →
        ∀ page, ¬ v.Wanted r offset n xs page)) ∨
    ∃ page v', v.vmarAllocateStatic r c offset n = some (.ok (), v') ∧ v.kind r = .region ∧
      0 < n ∧ v.unmapped r = false ∧ v.Wanted r offset n xs page ∧ Linked v v' r c page n ∧
      VmarsOk roots v' := by
  have hself : v = v.setRange c (v.base c) (v.pageCount c) := by simp [Vmars.setRange]
  by_cases hkind : v.kind r = .region
  swap
  · refine Or.inl ⟨.invalidArgument, v.base c, v.pageCount c, ?_,
      fun hk => absurd hk hkind⟩
    rw [Vmars.vmarAllocateStatic, if_pos hkind, ← hself]
  by_cases hn : n = 0
  · refine Or.inl ⟨.invalidArgument, v.base c, v.pageCount c, ?_, fun _ hn' => by omega⟩
    rw [Vmars.vmarAllocateStatic, if_neg (by simp [hkind]), if_pos hn, ← hself]
  have hpos : 0 < n := Nat.pos_of_ne_zero hn
  rcases h.vmarFindPlace offset hr hkind hc hcr hu hpos hok hxs with
    ⟨b, m, e, hno⟩ | ⟨page, v', e, hu', hw, e', hl, h'⟩
  · refine Or.inl ⟨.internalError, b, m, ?_, fun _ _ => hno⟩
    rw [Vmars.vmarAllocateStatic, if_neg (by simp [hkind]), if_neg hn, e]
  · refine Or.inr ⟨page, v', ?_, hkind, hpos, hu', hw, hl, h'⟩
    rw [Vmars.vmarAllocateStatic, if_neg (by simp [hkind]), if_neg hn, e]
    simp only [e', Option.map_some]

/-- `vmar_link` links the child at its own range, or it does not return. -/
theorem vmarLink (h : VmarsOk roots v) (hr : v.InTree roots r) (hc : ¬ v.InTree roots c)
    (hu : v.unmapped c = false) (hn : 0 < v.pageCount c) (hd : 4096 ∣ v.base c)
    (he : v.vmarLink r c = some v') :
    Linked v v' r c (v.vmarFirstPage c) (v.pageCount c) ∧ VmarsOk roots v' := by
  obtain ⟨xs, hok, hxs⟩ := h.children r
  have hbound := (h.bound r hr).1
  rw [Vmars.vmarLink, ChildrenOk.vmarCheckInParent_eq (by omega)] at he
  split at he
  · simp at he
  rename_i heq
  split at heq
  swap
  · simp at heq
  rename_i hin
  have hpages : v.vmarFirstPage c * 4096 = v.base c := by
    rw [vmarFirstPage_eq]
    exact Nat.div_mul_cancel hd
  have hself : v = v.setRange c (v.vmarFirstPage c * 4096) (v.pageCount c) := by
    simp [hpages, Vmars.setRange]
  have hkind : v.kind r = .region := by
    by_contra hne
    rw [Vmars.vmarLinkInternal, if_pos hne] at he
    simp at he
  have hlt : v.vmarFirstPage c < v.pageEnd c := Nat.lt_add_of_pos_right hn
  rcases h.vmarLinkInternal hr hkind hc hu ⟨hin.1, hlt, hin.2⟩ hd hok hxs with
    ⟨e, -⟩ | ⟨A, B, v1, rfl, e, hok', h', hrel, hpar, hunm⟩
  · simp [e] at he
  · obtain rfl := Option.some.inj (e.symm.trans he)
    refine ⟨⟨⟨A, B, hok, h', hxs⟩, ?_, ?_, hpar, hrel.refCount, hrel.kind, hunm, hrel.locked,
      hrel.pageTableLock, hrel.children, fun z hz hp => ?_⟩, hok'⟩
    · rw [hrel.base, hpages, Function.update_eq_self]
    · rw [hrel.pageCount, Function.update_eq_self]
    · refine hrel.node z fun hm => hp ((hxs z).mp ?_)
      simpa [hz] using hm

end VmarsOk

end Vmars

end Tomato
