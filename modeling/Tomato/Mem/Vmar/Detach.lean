import Tomato.Mem.Vmar.Pages

/-!
# Vmars that leave the tree

`Detached` says what is left of the tree after some vmars were taken out of it. One vmar
without children is taken out, with its pages if it is a mapping, and its references are put.
-/

namespace Tomato

open RbTree Ranges Forest Transition Blocks Vmars

namespace Vmm

/-- The pages of the mappings among some vmars. -/
def pagesOf (s : Vmm) (S : Set ℕ) : Set ℕ :=
  {n | ∃ x ∈ S, s.vmars.kind x = .mapping ∧ n ∈ s.vmars.pageNumbers x}

/-- The vmars in `S` are in no tree any more, and their pages are empty. Of the others only the
children of the regions in `P` have other siblings. -/
structure Detached (k : Kernel) (s s' : Vmm) (S P : Set ℕ) : Prop where
  inside : ∀ y ∈ S, s'.vmars.parent y = none
  outside : ∀ y ∉ S, s'.vmars.parent y = s.vmars.parent y
  live : ∀ y ∈ s'.run.live, y ∈ s.run.live
  kept : ∀ y ∈ s.run.live, y ∉ S → y ∈ s'.run.live
  fields : ∀ y, y ∉ S ∨ y ∈ s'.run.live → s'.vmars.base y = s.vmars.base y ∧
    s'.vmars.pageCount y = s.vmars.pageCount y ∧ s'.vmars.kind y = s.vmars.kind y ∧
    s'.vmars.locked y = s.vmars.locked y
  same : ∀ y ∉ S, s'.vmars.unmapped y = s.vmars.unmapped y ∧
    s'.vmars.refCount y = s.vmars.refCount y
  children : ∀ r ∉ S, r ∉ P → s'.vmars.children r = s.vmars.children r ∧
    s'.vmars.leftmost r = s.vmars.leftmost r
  node : ∀ z ∉ S, (∀ p ∈ P, s.vmars.parent z ≠ some p) → s'.vmars.gap z = s.vmars.gap z ∧
    s'.vmars.maxGap z = s.vmars.maxGap z ∧ s'.vmars.prev z = s.vmars.prev z ∧
    s'.vmars.next z = s.vmars.next z
  changed : VirtState.Changed k.d s.virt s'.virt (s.pagesOf S)
  zero : ∀ n ∈ s.pagesOf S, s'.virt.flatMap k.d n = 0

variable {k : Kernel} {s s' s'' : Vmm} {f : ℕ → ℕ} {x y p n : ℕ} {S T P Q : Set ℕ}

namespace Detached

theorem refl (k : Kernel) (s : Vmm) (P : Set ℕ) : Detached k s s ∅ P where
  inside := fun _ hy => hy.elim
  outside := fun _ _ => rfl
  live := fun _ hy => hy
  kept := fun _ hy _ => hy
  fields := fun _ _ => ⟨rfl, rfl, rfl, rfl⟩
  same := fun _ _ => ⟨rfl, rfl⟩
  children := fun _ _ _ => ⟨rfl, rfl⟩
  node := fun _ _ _ => ⟨rfl, rfl, rfl, rfl⟩
  changed := .refl _ _
  zero := fun _ ⟨_, hx, _⟩ => hx.elim

/-- The pages of the vmars that were not touched are as before. -/
theorem pagesOf_eq (h : Detached k s s' S P) (hT : ∀ y ∈ T, y ∉ S) :
    s'.pagesOf T = s.pagesOf T := by
  ext n
  refine exists_congr fun y => and_congr_right fun hy => ?_
  obtain ⟨h1, h2, h3, -⟩ := h.fields y (Or.inl (hT y hy))
  rw [h3, pageNumbers_congr h1 h2]

theorem trans (h : Detached k s s' S P) (h' : Detached k s' s'' T Q) (hT : ∀ y ∈ T, y ∉ S) :
    Detached k s s'' (S ∪ T) (P ∪ Q) := by
  have hpages := h.pagesOf_eq hT
  have hunion : s.pagesOf (S ∪ T) = s.pagesOf S ∪ s'.pagesOf T := by
    rw [hpages]
    ext n
    simp only [pagesOf, Set.mem_union, Set.mem_ofPred_eq]
    constructor
    · rintro ⟨y, hy | hy, hn⟩
      · exact Or.inl ⟨y, hy, hn⟩
      · exact Or.inr ⟨y, hy, hn⟩
    · rintro (⟨y, hy, hn⟩ | ⟨y, hy, hn⟩)
      · exact ⟨y, Or.inl hy, hn⟩
      · exact ⟨y, Or.inr hy, hn⟩
  refine ⟨fun y hy => ?_, fun y hy => ?_, fun y hy => h.live y (h'.live y hy), fun y hy hn => ?_,
    fun y hy => ?_, fun y hy => ?_, fun r hr hp => ?_, fun z hz hp => ?_, ?_, fun n hn => ?_⟩
  · by_cases hyT : y ∈ T
    · exact h'.inside y hyT
    · rw [h'.outside y hyT]
      exact h.inside y (hy.resolve_right hyT)
  · rw [h'.outside y fun hc => hy (Or.inr hc), h.outside y fun hc => hy (Or.inl hc)]
  · exact h'.kept y (h.kept y hy fun hc => hn (Or.inl hc)) fun hc => hn (Or.inr hc)
  · have hold : y ∉ S ∨ y ∈ s'.run.live :=
      hy.imp (fun hy hc => hy (Or.inl hc)) fun hy => h'.live y hy
    have hnew : y ∉ T ∨ y ∈ s''.run.live := hy.imp (fun hy hc => hy (Or.inr hc)) id
    obtain ⟨h1, h2, h3, h4⟩ := h.fields y hold
    obtain ⟨h5, h6, h7, h8⟩ := h'.fields y hnew
    exact ⟨h5.trans h1, h6.trans h2, h7.trans h3, h8.trans h4⟩
  · obtain ⟨h1, h2⟩ := h.same y fun hc => hy (Or.inl hc)
    obtain ⟨h3, h4⟩ := h'.same y fun hc => hy (Or.inr hc)
    exact ⟨h3.trans h1, h4.trans h2⟩
  · obtain ⟨h1, h2⟩ := h.children r (fun hc => hr (Or.inl hc)) fun hc => hp (Or.inl hc)
    obtain ⟨h3, h4⟩ := h'.children r (fun hc => hr (Or.inr hc)) fun hc => hp (Or.inr hc)
    exact ⟨h3.trans h1, h4.trans h2⟩
  · have hzS : z ∉ S := fun hc => hz (Or.inl hc)
    obtain ⟨h1, h2, h3, h4⟩ := h.node z hzS fun p hpP => hp p (Or.inl hpP)
    obtain ⟨h5, h6, h7, h8⟩ := h'.node z (fun hc => hz (Or.inr hc)) fun p hpQ => by
      rw [h.outside z hzS]
      exact hp p (Or.inr hpQ)
    exact ⟨h5.trans h1, h6.trans h2, h7.trans h3, h8.trans h4⟩
  · rw [hunion]
    exact h.changed.trans h'.changed
  · rw [hunion] at hn
    by_cases hnT : n ∈ s'.pagesOf T
    · exact h'.zero n hnT
    · have hnS := hn.resolve_right hnT
      obtain ⟨y, -, -, hy⟩ := id hnS
      rw [h'.changed.leaf n (lt_of_mem_pageNumbers hy) hnT]
      exact h.zero n hnS

/-- A region that left the tree itself needs no mention, if all its children did. -/
theorem shrink (h : Detached k s s' S P)
    (hP : ∀ r ∈ P, r ∉ Q → r ∈ S ∧ ∀ z, s.vmars.parent z = some r → z ∈ S) :
    Detached k s s' S Q where
  inside := h.inside
  outside := h.outside
  live := h.live
  kept := h.kept
  fields := h.fields
  same := h.same
  children := fun r hr hq => h.children r hr fun hp => hr (hP r hp hq).1
  node := fun z hz hq => h.node z hz fun r hr hp => by
    by_cases hrq : r ∈ Q
    · exact hq r hrq hp
    · exact hz ((hP r hr hrq).2 z hp)
  changed := h.changed
  zero := h.zero

end Detached

namespace Ok

/-- A vmar without children leaves the tree. The reference of the tree is still held. -/
theorem unlink (h : s.Ok k f) (hp : s.vmars.parent x = some p)
    (hleaf : ∀ z, s.vmars.parent z ≠ some x) (hk : s.vmars.kind x ≠ .special) :
    ∃ A B v', s.vmars.ChildrenOk p (A ++ x :: B) ∧ s.vmars.vmarUnlink p x = some v' ∧
      v'.ChildrenOk p (A ++ B) ∧ Relinked s.vmars v' p (A ++ x :: B) ∧
      (∀ z, z ∈ A ++ x :: B ↔ s.vmars.parent z = some p) ∧
      v'.parent = Function.update s.vmars.parent x none ∧
      v'.unmapped = Function.update s.vmars.unmapped x true ∧
      (s.setVmars v').Ok k (Function.update f x (f x + 1)) := by
  obtain ⟨A, B, v', hok, e, htree, hok', hrel, hpar, hunm⟩ := h.tree.vmarUnlink hp hleaf
  have hlive : x ∈ s.run.live := h.mem_live (by simp [hp]) hk
  obtain ⟨xs, hxs, hmem⟩ := h.tree.children p
  obtain rfl : xs = A ++ x :: B := hxs.tree.toList.symm.trans hok.tree.toList
  refine ⟨A, B, v', hok, e, hok', hrel, hmem, hpar, hunm, h.slabs, htree, ?_, ?_, ?_,
    fun y hy hyl => ?_, fun y hy => ?_, ?_, fun y hy hyp => ?_, ?_, fun y hy => ?_, ?_,
    fun m hm hlt => ?_⟩
  · exact ⟨(congrFun hrel.base _).trans h.kernelRegion.1,
      (congrFun hrel.pageCount _).trans h.kernelRegion.2⟩
  · exact ⟨(congrFun hrel.base _).trans h.userRegion.1,
      (congrFun hrel.pageCount _).trans h.userRegion.2⟩
  · change ∀ y ∉ k.d.range, y ∉ k.roots → v'.kind y = _
    rw [hrel.kind]
    exact h.static
  · -- an object that is not handed out is neither a child nor a region in the tree
    have hb := h.dead y hy hyl
    have hyx : y ≠ x := by
      rintro rfl
      exact hyl hlive
    have hyp : y ≠ p := by
      rintro rfl
      exact h.not_inTree hy hyl (h.tree.parent x y hp).2
    obtain ⟨h1, h2⟩ := hrel.children y hyp
    obtain ⟨h3, h4, h5, h6⟩ := hrel.node y fun hc => by
      have := (hmem y).mp hc
      simp [hb.parent] at this
    have hpy : v'.parent y = none := by rw [hpar, Function.update_of_ne hyx, hb.parent]
    have huy : v'.unmapped y = false := by rw [hunm, Function.update_of_ne hyx, hb.unmapped]
    exact ⟨hrel.refCount ▸ hb.refCount, hrel.base ▸ hb.base, hrel.pageCount ▸ hb.pageCount, hpy,
      h3.trans hb.gap, h4.trans hb.maxGap, hrel.kind ▸ hb.kind, huy, hrel.locked ▸ hb.locked,
      h5.trans hb.prev, h6.trans hb.next, h1.trans hb.children, h2.trans hb.leftmost,
      hrel.pageTableLock ▸ hb.pageTableLock⟩
  · change v'.refCount y = (if v'.parent y = none then 0 else 1) + _
    rw [hrel.refCount, h.refs y hy, hpar, Vmars.linked]
    by_cases hyx : y = x
    · rw [hyx, Function.update_self, Function.update_self, hp]
      simp only [reduceCtorEq, if_true, if_false]
      omega
    · rw [Function.update_of_ne hyx, Function.update_of_ne hyx]
  · change ∀ y ∈ s.run.live, 0 < v'.refCount y
    rw [hrel.refCount]
    exact h.used
  · change v'.unmapped y = true
    change v'.parent y = none at hyp
    rw [hunm]
    by_cases hyx : y = x
    · rw [hyx, Function.update_self]
    · rw [hpar, Function.update_of_ne hyx] at hyp
      rw [Function.update_of_ne hyx]
      exact h.cut y hy hyp
  · change ∀ y ∈ s.run.live, v'.kind y ≠ _
    rw [hrel.kind]
    exact h.kinds
  · by_cases hyx : y = x
    · exact hyx ▸ hlive
    · rw [Function.update_of_ne hyx] at hy
      exact h.held y hy
  · change ∀ y, v'.pageTableLock y = false
    rw [hrel.pageTableLock]
    exact h.unlocked
  · obtain ⟨y, hky, hpy, hmy⟩ := h.boot m hm hlt
    have hyx : y ≠ x := by
      rintro rfl
      exact hk hky
    refine ⟨y, (congrFun hrel.kind y).trans hky, ?_, ?_⟩
    · change v'.parent y ≠ none
      rwa [hpar, Function.update_of_ne hyx]
    · change m ∈ v'.pageNumbers y
      rwa [pageNumbers_congr (congrFun hrel.base y) (congrFun hrel.pageCount y)]

theorem live_nodup (h : s.Ok k f) : s.run.live.Nodup := by
  obtain ⟨-, lists, hi, -⟩ := h.slabs
  exact hi.live_nodup

end Ok

/-- One vmar left the tree, and its pages were freed before that. -/
theorem detached_unlink {s1 : Vmm} {v' : Vmars} {A B : List ℕ} (hv1 : s1.vmars = s.vmars)
    (hlive : s1.run.live = s.run.live)
    (hc : VirtState.Changed k.d s.virt s1.virt (s.pagesOf {x}))
    (hz : ∀ n ∈ s.pagesOf {x}, s1.virt.flatMap k.d n = 0)
    (hrel : Relinked s1.vmars v' p (A ++ x :: B))
    (hmem : ∀ z, z ∈ A ++ x :: B ↔ s1.vmars.parent z = some p)
    (hpar : v'.parent = Function.update s1.vmars.parent x none)
    (hunm : v'.unmapped = Function.update s1.vmars.unmapped x true) :
    Detached k s (s1.setVmars v') {x} {p} := by
  rw [hv1] at hrel hmem hpar hunm
  refine ⟨fun y hy => ?_, fun y hy => ?_, fun y hy => hlive ▸ hy, fun y hy _ => hlive ▸ hy,
    fun y _ => ⟨congrFun hrel.base y, congrFun hrel.pageCount y, congrFun hrel.kind y,
      congrFun hrel.locked y⟩, fun y hy => ⟨?_, congrFun hrel.refCount y⟩,
    fun r _ hr => hrel.children r hr, fun z hz hp => hrel.node z fun hc => hp p rfl ((hmem z).mp hc),
    hc, hz⟩
  · obtain rfl := hy
    change v'.parent y = none
    rw [hpar, Function.update_self]
  · change v'.parent y = _
    rw [hpar, Function.update_of_ne hy]
  · change v'.unmapped y = _
    rw [hunm, Function.update_of_ne hy]

/-- The fields of the objects but for the one whose reference is put. -/
theorem Ok.put_fields (h : s.Ok k f) (hx : 0 < f x) (he : s.objectPut k x = some s') :
    s'.virt = s.virt ∧ s'.Ok k (Function.update f x (f x - 1)) ∧
      (∀ y, s'.vmars.parent y = s.vmars.parent y) ∧
      (∀ y ∈ s'.run.live, y ∈ s.run.live) ∧
      (∀ y, y ≠ x → SameBut x s.vmars s'.vmars ∧ (y ∈ s.run.live → y ∈ s'.run.live)) ∧
      (x ∈ s'.run.live → s'.vmars = s.vmars.dropRef x) ∧
      (s.vmars.parent x ≠ none → s'.vmars = s.vmars.dropRef x ∧ s'.run = s.run) := by
  obtain ⟨s1, e, hok, hvirt, hcase⟩ := h.objectPut hx
  obtain rfl := Option.some.inj (e.symm.trans he)
  rcases hcase with ⟨hf, hp, hv, hl⟩ | ⟨hne, hv, hr⟩
  · refine ⟨hvirt, hok, fun y => ?_, fun y hy => ?_, fun y hy => ⟨hv ▸ sameBut_wipe _ _, fun hyl => ?_⟩,
      fun hx' => ?_, fun hne => absurd hp hne⟩
    · rw [hv]
      by_cases hy : y = x
      · rw [hy, hp]
        exact Function.update_self _ _ _
      · exact Function.update_of_ne hy _ _
    · exact List.mem_of_mem_erase (hl ▸ hy)
    · rw [hl, h.live_nodup.mem_erase_iff]
      exact ⟨hy, hyl⟩
    · rw [hl, h.live_nodup.mem_erase_iff] at hx'
      exact absurd rfl hx'.1
  · refine ⟨hvirt, hok, fun y => by rw [hv]; rfl, fun y hy => hr ▸ hy, fun y hy => ⟨?_, fun hyl => ?_⟩,
      fun _ => hv, fun _ => ⟨hv, hr⟩⟩
    · rw [hv]
      constructor <;> intro z hz <;> first | rfl | exact Function.update_of_ne hz _ _
    · exact hr.symm ▸ hyl

/-- The reference of the tree is put. -/
theorem Detached.put (h : Detached k s s' S P) (hok : s'.Ok k f) (hx : x ∈ S) (hf : 0 < f x)
    (he : s'.objectPut k x = some s'') : Detached k s s'' S P := by
  obtain ⟨hvirt, -, hpar, hsub, hother, hdrop, -⟩ := hok.put_fields hf he
  have hne : ∀ y ∉ S, y ≠ x := by
    rintro y hy rfl
    exact hy hx
  refine ⟨fun y hy => (hpar y).trans (h.inside y hy), fun y hy => (hpar y).trans (h.outside y hy),
    fun y hy => h.live y (hsub y hy), fun y hy hn => (hother y (hne y hn)).2 (h.kept y hy hn),
    fun y hy => ?_, fun y hy => ?_, fun r hr hp => ?_, fun z hz hp => ?_, hvirt.symm ▸ h.changed,
    hvirt.symm ▸ h.zero⟩
  · obtain ⟨h1, h2, h3, h4⟩ := h.fields y (hy.imp id (hsub y))
    by_cases hyx : y = x
    · subst hyx
      rw [hdrop (hy.resolve_left fun hc => hc hx)]
      exact ⟨h1, h2, h3, h4⟩
    · obtain ⟨hs, -⟩ := hother y hyx
      exact ⟨(hs.base y hyx).trans h1, (hs.pageCount y hyx).trans h2, (hs.kind y hyx).trans h3,
        (hs.locked y hyx).trans h4⟩
  · obtain ⟨hs, -⟩ := hother y (hne y hy)
    obtain ⟨h1, h2⟩ := h.same y hy
    exact ⟨(hs.unmapped y (hne y hy)).trans h1, (hs.refCount y (hne y hy)).trans h2⟩
  · obtain ⟨hs, -⟩ := hother r (hne r hr)
    obtain ⟨h1, h2⟩ := h.children r hr hp
    exact ⟨(hs.children r (hne r hr)).trans h1, (hs.leftmost r (hne r hr)).trans h2⟩
  · obtain ⟨hs, -⟩ := hother z (hne z hz)
    obtain ⟨h1, h2, h3, h4⟩ := h.node z hz hp
    exact ⟨(hs.gap z (hne z hz)).trans h1, (hs.maxGap z (hne z hz)).trans h2,
      (hs.prev z (hne z hz)).trans h3, (hs.next z (hne z hz)).trans h4⟩

namespace PagesOk

theorem objectPut (h : s.PagesOk k) (hok : s.Ok k f) (hf : 0 < f x)
    (he : s.objectPut k x = some s') : s'.PagesOk k := by
  obtain ⟨hvirt, -, hpar, -, hother, -, hkeep⟩ := hok.put_fields hf he
  have hlinked : ∀ y, s.vmars.parent y ≠ none → s'.vmars.kind y = s.vmars.kind y ∧
      s'.vmars.locked y = s.vmars.locked y ∧
      s'.vmars.pageNumbers y = s.vmars.pageNumbers y := by
    intro y hp
    by_cases hyx : y = x
    · subst hyx
      rw [(hkeep hp).1]
      exact ⟨rfl, rfl, rfl⟩
    · obtain ⟨hs, -⟩ := hother y hyx
      exact ⟨hs.kind y hyx, hs.locked y hyx, pageNumbers_congr (hs.base y hyx) (hs.pageCount y hyx)⟩
  refine h.congr_vmars hvirt ?_ (fun y hp hk hl => ?_) fun y hk hp => ?_
  · ext n
    refine exists_congr fun y => ?_
    rw [hpar]
    refine and_congr_right fun hp => ?_
    obtain ⟨h1, -, h3⟩ := hlinked y hp
    rw [h1, h3]
  · rw [hpar] at hp
    obtain ⟨h1, h2, h3⟩ := hlinked y hp
    exact ⟨hp, h1 ▸ hk, h2 ▸ hl, h3⟩
  · obtain ⟨h1, -, h3⟩ := hlinked y hp
    exact ⟨h1.trans hk, (hpar y).symm ▸ hp, h3⟩

/-- The pages of a vmar that left the tree were freed before that, and were the ones of a
mapping, or there were none. -/
theorem detach (h : s.PagesOk k) (hok : s.Ok k f) (hd : Detached k s s' {x} {p})
    (hp : s.vmars.parent x ≠ none) (hk : s.vmars.kind x ≠ .special)
    (hlive : x ∈ s'.run.live)
    (hres : s'.virt.phys.acct.reserved +
      {n | n ∈ s.pagesOf {x} ∧ s.virt.flatMap k.d n = 0}.ncard = s.virt.phys.acct.reserved) :
    s'.PagesOk k := by
  have hparx : s'.vmars.parent x = none := hd.inside x rfl
  have hother : ∀ y, y ≠ x → s'.vmars.parent y = s.vmars.parent y := fun y hy => hd.outside y hy
  have hfields : ∀ y, s'.vmars.kind y = s.vmars.kind y ∧
      s'.vmars.locked y = s.vmars.locked y ∧
      s'.vmars.pageNumbers y = s.vmars.pageNumbers y := by
    intro y
    have hy : y ∉ ({x} : Set ℕ) ∨ y ∈ s'.run.live := by
      by_cases hyx : y = x
      · exact Or.inr (hyx ▸ hlive)
      · exact Or.inl hyx
    obtain ⟨h1, h2, h3, h4⟩ := hd.fields y hy
    exact ⟨h3, h4, pageNumbers_congr h1 h2⟩
  -- the pages of the other mappings are different ones
  have hapart : ∀ y, y ≠ x → s.vmars.parent y ≠ none → s.vmars.kind y = .mapping →
      ∀ n ∈ s.vmars.pageNumbers y, n ∉ s.pagesOf {x} := by
    rintro y hyx hpy hky n hn ⟨z, rfl, hkz, hnz⟩
    exact hyx (hok.eq_of_page hpy hp (by simp [hky]) (by simp [hkz]) hn hnz)
  have hmapped : s.mapped = s'.mapped ∪ s.pagesOf {x} := by
    ext n
    constructor
    · rintro ⟨y, hpy, hky, hn⟩
      by_cases hyx : y = x
      · exact Or.inr ⟨y, hyx, hky, hn⟩
      · obtain ⟨h1, -, h3⟩ := hfields y
        exact Or.inl ⟨y, (hother y hyx).symm ▸ hpy, h1.symm ▸ hky, h3.symm ▸ hn⟩
    · rintro (⟨y, hpy, hky, hn⟩ | ⟨y, rfl, hky, hn⟩)
      · have hyx : y ≠ x := by
          rintro rfl
          exact hpy hparx
        obtain ⟨h1, -, h3⟩ := hfields y
        exact ⟨y, hother y hyx ▸ hpy, h1 ▸ hky, h3 ▸ hn⟩
      · exact ⟨y, hp, hky, hn⟩
  have hnot : ∀ n ∈ s'.mapped, n ∉ s.pagesOf {x} := by
    rintro n ⟨y, hpy, hky, hn⟩
    have hyx : y ≠ x := by
      rintro rfl
      exact hpy hparx
    obtain ⟨h1, -, h3⟩ := hfields y
    exact hapart y hyx (hother y hyx ▸ hpy) (h1 ▸ hky) n (h3 ▸ hn)
  have hflat : ∀ n < 2 ^ 36, n ∉ s.pagesOf {x} →
      s'.virt.flatMap k.d n = s.virt.flatMap k.d n := hd.changed.leaf
  have hcases : ∀ n < 2 ^ 36, s'.virt.flatMap k.d n ≠ 0 →
      n ∉ s.pagesOf {x} ∧ s'.virt.flatMap k.d n = s.virt.flatMap k.d n := by
    intro n hn hne
    have hnx : n ∉ s.pagesOf {x} := fun hc => hne (hd.zero n hc)
    exact ⟨hnx, hflat n hn hnx⟩
  refine ⟨fun n hn => ?_, fun n hn hne => ?_, fun y hpy hky hly n hn => ?_, fun n hn hne => ?_, ?_,
    fun n hn => ?_, fun a ha => ?_, ?_⟩
  · exact hd.changed.slot n (lt_of_mem_mapped hn) (h.tables n (hmapped.symm ▸ Or.inl hn))
  · obtain ⟨hnx, he⟩ := hcases n hn hne
    rw [hd.changed.bootPages]
    exact (h.covered n hn (he ▸ hne)).imp id fun hm => (hmapped ▸ hm).resolve_right hnx
  · have hm : n ∈ s'.mapped := ⟨y, hpy, hky, hn⟩
    rw [hflat n (lt_of_mem_mapped hm) (hnot n hm)]
    obtain ⟨h1, h2, h3⟩ := hfields y
    have hyx : y ≠ x := by
      rintro rfl
      exact hpy hparx
    exact h.pinned y (hother y hyx ▸ hpy) (h1 ▸ hky) (h2 ▸ hly) n (h3 ▸ hn)
  · obtain ⟨-, he⟩ := hcases n hn hne
    rw [he] at hne ⊢
    exact h.present n hn hne
  · have hsplit : s.empty k = s'.empty k ∪ {n | n ∈ s.pagesOf {x} ∧ s.virt.flatMap k.d n = 0} := by
      ext n
      simp only [empty, hmapped, Set.mem_ofPred_eq, Set.mem_union]
      constructor
      · rintro ⟨hm | hm, h0⟩
        · exact Or.inl ⟨hm, (hflat n (lt_of_mem_mapped hm) (hnot n hm)).trans h0⟩
        · exact Or.inr ⟨hm, h0⟩
      · rintro (⟨hm, h0⟩ | ⟨hm, h0⟩)
        · exact ⟨Or.inl hm, (hflat n (lt_of_mem_mapped hm) (hnot n hm)).symm.trans h0⟩
        · exact ⟨Or.inr hm, h0⟩
    have hdisj : Disjoint (s'.empty k) {n | n ∈ s.pagesOf {x} ∧ s.virt.flatMap k.d n = 0} := by
      rw [Set.disjoint_left]
      exact fun n hn hc => hnot n hn.1 hc.1
    have hfin : {n | n ∈ s.pagesOf {x} ∧ s.virt.flatMap k.d n = 0}.Finite :=
      finite_pages (by
        rintro n ⟨⟨_, _, _, hn⟩, _⟩
        exact lt_of_mem_pageNumbers hn)
    have hsum := h.reserved
    rw [hsplit, Set.ncard_union_eq hdisj (finite_empty s' k) hfin] at hsum
    omega
  · obtain ⟨y, hky, hpy, hny⟩ := h.direct n hn
    have hyx : y ≠ x := by
      rintro rfl
      exact hk hky
    obtain ⟨h1, -, h3⟩ := hfields y
    exact ⟨y, h1.trans hky, (hother y hyx).symm ▸ hpy, h3.symm ▸ hny⟩
  · rw [Clients.added, hd.changed.ranges] at ha
    exact hd.changed.slot _ (pageNumber_lt a) (h.added a ha)
  · exact fromUsable_of_ranges h.usable hok.handedOver hd.changed.ranges

end PagesOk

end Vmm

end Tomato
