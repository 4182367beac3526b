import Tomato.Lib.Forest
import Tomato.Mem.Vmar.Place

/-!
# The invariant of the VMAR tree

`VmarsOk` says that the children of every region are right, and that the parents make a
forest below the roots. It is kept when a vmar without children is linked or unlinked, and
by everything that only concerns vmars outside of the forest.
-/

namespace Tomato

open RbTree Ranges Forest

namespace Vmars

section

variable (v : Vmars) (roots : Set ℕ)

/-- The vmar is a root, or has a parent. -/
def InTree (x : ℕ) : Prop := x ∈ roots ∨ v.parent x ≠ none

/-- The pages of a vmar. -/
def pages (x : ℕ) : Set ℕ := Set.Ico (v.vmarFirstPage x) (v.pageEnd x)

end

structure VmarsOk (roots : Set ℕ) (v : Vmars) : Prop where
  children : ∀ r, ∃ xs, v.ChildrenOk r xs ∧ ∀ x, x ∈ xs ↔ v.parent x = some r
  parent : ∀ x p, v.parent x = some p → v.kind p = .region ∧ v.InTree roots p
  bound : ∀ x, v.InTree roots x → v.pageEnd x ≤ 2 ^ 52 ∧ 4096 ∣ v.base x
  root : ∀ r ∈ roots, v.parent r = none ∧ v.kind r = .region
  unmapped : ∀ x, v.unmapped x = true → ¬ v.InTree roots x
  ranked : ∃ rank, Ranked v.parent rank
  below : ∀ x p, v.parent x = some p → ∃ root ∈ roots, Below v.parent x root

/-- All the fields of the vmars other than `x` are the same. -/
structure SameBut (x : ℕ) (v v' : Vmars) : Prop where
  refCount : ∀ z, z ≠ x → v'.refCount z = v.refCount z
  base : ∀ z, z ≠ x → v'.base z = v.base z
  pageCount : ∀ z, z ≠ x → v'.pageCount z = v.pageCount z
  parent : ∀ z, z ≠ x → v'.parent z = v.parent z
  gap : ∀ z, z ≠ x → v'.gap z = v.gap z
  maxGap : ∀ z, z ≠ x → v'.maxGap z = v.maxGap z
  kind : ∀ z, z ≠ x → v'.kind z = v.kind z
  unmapped : ∀ z, z ≠ x → v'.unmapped z = v.unmapped z
  locked : ∀ z, z ≠ x → v'.locked z = v.locked z
  prev : ∀ z, z ≠ x → v'.prev z = v.prev z
  next : ∀ z, z ≠ x → v'.next z = v.next z
  children : ∀ z, z ≠ x → v'.children z = v.children z
  leftmost : ∀ z, z ≠ x → v'.leftmost z = v.leftmost z
  pageTableLock : ∀ z, z ≠ x → v'.pageTableLock z = v.pageTableLock z

variable {v v' : Vmars} {roots : Set ℕ} {r c x y p n b offset : ℕ} {xs A B : List ℕ}

theorem childrenOk_nil (hc : v.children r = .nil) (hl : v.leftmost r = none) :
    v.ChildrenOk r [] := by
  refine ⟨⟨?_, List.nodup_nil, ⟨0, ?_⟩, ?_, ?_, ?_, ?_⟩, Nat.le_add_right _ _, trivial⟩
  · rw [hc]
    rfl
  · rw [hc]
    exact .nil
  · rw [hc]
    trivial
  · exact hl
  · intro a x b he
    simp at he
  · intro a x b he
    simp at he

theorem ChildrenOk.eq_nil (h : v.ChildrenOk r []) : v.children r = .nil ∧ v.leftmost r = none := by
  refine ⟨?_, h.tree.links.leftmost⟩
  have hlist := h.tree.toList
  cases hc : v.children r with
  | nil => rfl
  | node c l y t => simp [hc, RbTree.Tree.toList] at hlist

theorem sameBut_setRange : SameBut x v (v.setRange x b n) := by
  constructor <;> intro z hz <;> first | rfl | exact Function.update_of_ne hz _ _

namespace VmarsOk

/-- A vmar with a child is in the forest. -/
theorem leaf (h : VmarsOk roots v) (hx : ¬ v.InTree roots x) (z : ℕ) : v.parent z ≠ some x :=
  fun hz => hx (h.parent z x hz).2

theorem leaf_of_kind (h : VmarsOk roots v) (hx : v.kind x ≠ .region) (z : ℕ) :
    v.parent z ≠ some x := fun hz => hx (h.parent z x hz).1

/-- A vmar outside of the forest has no children. -/
theorem children_eq_nil (h : VmarsOk roots v) (hx : ∀ z, v.parent z ≠ some x) :
    v.children x = .nil ∧ v.leftmost x = none := by
  obtain ⟨xs, hok, hxs⟩ := h.children x
  obtain rfl : xs = [] := List.eq_nil_iff_forall_not_mem.mpr fun z hz => hx z ((hxs z).mp hz)
  exact hok.eq_nil

/-- Only a vmar outside of the forest changes. -/
theorem outside (h : VmarsOk roots v) (hs : SameBut x v v') (hx : ¬ v.InTree roots x)
    (hp : v'.parent x = none) (hc : v'.children x = .nil) (hl : v'.leftmost x = none) :
    VmarsOk roots v' := by
  have hparent : v'.parent = v.parent := by
    funext z
    by_cases hz : z = x
    · subst hz
      rw [hp]
      by_contra hne
      exact hx (Or.inr (Ne.symm hne))
    · exact hs.parent z hz
  have hroot : ∀ r ∈ roots, r ≠ x := by
    rintro r hr rfl
    exact hx (Or.inl hr)
  have hin : ∀ z, v'.InTree roots z ↔ v.InTree roots z := fun z => by
    rw [InTree, InTree, hparent]
  have hne : ∀ z, v.InTree roots z → z ≠ x := by
    rintro z hz rfl
    exact hx hz
  refine ⟨fun r => ?_, fun z p hz => ?_, fun z hz => ?_, fun r hr => ?_, fun z hz => ?_, ?_, ?_⟩
  · by_cases hr : r = x
    · subst hr
      refine ⟨[], childrenOk_nil hc hl, fun z => ?_⟩
      rw [hparent]
      simpa using h.leaf hx z
    · obtain ⟨xs, hok, hxs⟩ := h.children r
      have hmem : ∀ z ∈ xs, z ≠ x := fun z hz => hne z (Or.inr (by simp [(hxs z).mp hz]))
      refine ⟨xs, hok.congr ⟨hs.children r hr, hs.leftmost r hr⟩ (fun z hz => ?_) fun z hz => ?_,
        fun z => ?_⟩
      · have hzx : z ≠ x := by
          rcases hz with rfl | hz
          · exact hr
          · exact hmem z hz
        exact ⟨hs.base z hzx, hs.pageCount z hzx⟩
      · have hzx := hmem z hz
        exact ⟨hs.gap z hzx, hs.maxGap z hzx, hs.prev z hzx, hs.next z hzx⟩
      · rw [hparent]
        exact hxs z
  · rw [hparent] at hz
    obtain ⟨h1, h2⟩ := h.parent z p hz
    exact ⟨(hs.kind p (hne p h2)).trans h1, (hin p).mpr h2⟩
  · rw [hin] at hz
    have hzx := hne z hz
    rw [pageEnd, vmarFirstPage, hs.base z hzx, hs.pageCount z hzx]
    exact h.bound z hz
  · obtain ⟨h1, h2⟩ := h.root r hr
    exact ⟨hparent ▸ h1, (hs.kind r (hroot r hr)).trans h2⟩
  · rw [hin]
    intro hz'
    exact h.unmapped z ((hs.unmapped z (hne z hz')).symm.trans hz) hz'
  · rw [hparent]
    exact h.ranked
  · rw [hparent]
    exact h.below

/-- The fields that the tree does not use do not matter. -/
theorem congr (h : VmarsOk roots v) (hbase : v'.base = v.base) (hcount : v'.pageCount = v.pageCount)
    (hparent : v'.parent = v.parent) (hgap : v'.gap = v.gap) (hmax : v'.maxGap = v.maxGap)
    (hkind : v'.kind = v.kind) (hunm : v'.unmapped = v.unmapped) (hprev : v'.prev = v.prev)
    (hnext : v'.next = v.next) (hch : v'.children = v.children) (hl : v'.leftmost = v.leftmost) :
    VmarsOk roots v' := by
  have hin : ∀ z, v'.InTree roots z ↔ v.InTree roots z := fun z => by
    rw [InTree, InTree, hparent]
  refine ⟨fun r => ?_, ?_, fun z hz => ?_, ?_, fun z hz => ?_, ?_, ?_⟩
  · obtain ⟨xs, hok, hxs⟩ := h.children r
    exact ⟨xs, hok.congr ⟨by rw [hch], by rw [hl]⟩ (fun z _ => ⟨by rw [hbase], by rw [hcount]⟩)
      fun z _ => ⟨by rw [hgap], by rw [hmax], by rw [hprev], by rw [hnext]⟩, hparent ▸ hxs⟩
  · rw [hparent, hkind]
    exact fun z p hz => ⟨(h.parent z p hz).1, (hin p).mpr (h.parent z p hz).2⟩
  · rw [pageEnd, vmarFirstPage, hbase, hcount]
    exact h.bound z ((hin z).mp hz)
  · rw [hparent, hkind]
    exact h.root
  · rw [hunm] at hz
    rw [hin]
    exact h.unmapped z hz
  · rw [hparent]
    exact h.ranked
  · rw [hparent]
    exact h.below

/-- The children of the other regions stay as they are. -/
theorem children_other (h : VmarsOk roots v) (hrel : Relinked v v' r xs) (hr : y ≠ r)
    (hxs : ∀ z ∈ xs, z = c ∨ v.parent z = some r) (hc : v.parent c = none ∨ v.parent c = some r)
    {ys : List ℕ} (hok : v.ChildrenOk y ys) (hys : ∀ z, z ∈ ys ↔ v.parent z = some y) :
    v'.ChildrenOk y ys := by
  have hz : ∀ z ∈ ys, z ∉ xs := by
    intro z hz hzx
    have hzy := (hys z).mp hz
    rcases hxs z hzx with rfl | hzr
    · rcases hc with hc | hc
      · simp [hc] at hzy
      · exact hr (Option.some.inj (hzy.symm.trans hc))
    · exact hr (Option.some.inj (hzy.symm.trans hzr))
  exact hok.congr (hrel.children y hr) (fun z _ => ⟨by rw [hrel.base], by rw [hrel.pageCount]⟩)
    fun z hm => hrel.node z (hz z hm)

/-- The range of a vmar inside of the range of a region. -/
def Inside (v : Vmars) (r c : ℕ) : Prop :=
  v.vmarFirstPage r ≤ v.vmarFirstPage c ∧ v.vmarFirstPage c < v.pageEnd c ∧
    v.pageEnd c ≤ v.pageEnd r

/-- A new child of a region in the forest. The result says where it is, unless it overlaps
another child. -/
theorem vmarLinkInternal (h : VmarsOk roots v) (hr : v.InTree roots r) (hkind : v.kind r = .region)
    (hc : ¬ v.InTree roots c) (hu : v.unmapped c = false) (hin : Inside v r c)
    (hbase : 4096 ∣ v.base c) (hok : v.ChildrenOk r xs) (hxs : ∀ x, x ∈ xs ↔ v.parent x = some r) :
    (v.vmarLinkInternal r c = none ∧
      ∃ y ∈ xs, ¬ (v.pageEnd c ≤ v.vmarFirstPage y ∨ v.pageEnd y ≤ v.vmarFirstPage c)) ∨
    ∃ A B v', xs = A ++ B ∧ v.vmarLinkInternal r c = some v' ∧ VmarsOk roots v' ∧
      v'.ChildrenOk r (A ++ c :: B) ∧ Relinked v v' r (A ++ c :: B) ∧
      v'.parent = Function.update v.parent c (some r) ∧ v'.unmapped = v.unmapped := by
  have hcp : v.parent c = none := by
    by_contra hne
    exact hc (Or.inr hne)
  have hcr : c ≠ r := by
    rintro rfl
    exact hc hr
  have hleaf := h.leaf hc
  have hbound := (h.bound r hr).1
  rcases hok.vmarLinkInternal (by omega) hkind hcp hcr (fun x hx => (hxs x).mp hx) hin.2.1
    ⟨hin.1, hin.2.2⟩ with hno | ⟨A, B, v', rfl, e, h', hrel, hpar, hunm⟩
  · exact Or.inl hno
  refine Or.inr ⟨A, B, v', rfl, e, ?_, h', hrel, hpar, hunm⟩
  have hin' : ∀ z, v'.InTree roots z ↔ v.InTree roots z ∨ z = c := by
    intro z
    rw [InTree, InTree, hpar]
    by_cases hz : z = c
    · simp [hz]
    · simp [hz]
  have hfirst : v'.vmarFirstPage = v.vmarFirstPage := by
    funext z
    rw [vmarFirstPage, vmarFirstPage, hrel.base]
  have hend : v'.pageEnd = v.pageEnd := by
    funext z
    rw [pageEnd, pageEnd, hfirst, hrel.pageCount]
  obtain ⟨rank, hrank⟩ := h.ranked
  have hmem : ∀ x, x ∈ A ++ c :: B ↔ v'.parent x = some r := by
    intro x
    rw [hpar]
    by_cases hx : x = c
    · simp [hx]
    · rw [Function.update_of_ne hx, ← hxs]
      simp [hx]
  refine ⟨fun y => ?_, fun z p hz => ?_, fun z hz => ?_, fun z hz => ?_, fun z hz hz' => ?_,
    ⟨_, hpar ▸ hrank.link hleaf hcr⟩, fun z p hz => ?_⟩
  · by_cases hy : y = r
    · subst hy
      exact ⟨_, h', hmem⟩
    · obtain ⟨ys, hyok, hys⟩ := h.children y
      refine ⟨ys, h.children_other hrel hy (fun z hz => ?_) (Or.inl hcp) hyok hys, fun z => ?_⟩
      · by_cases hzc : z = c
        · exact Or.inl hzc
        · refine Or.inr ?_
          have := (hmem z).mp hz
          rwa [hpar, Function.update_of_ne hzc] at this
      · rw [hpar]
        by_cases hz : z = c
        · rw [hz, Function.update_self, hys, hcp]
          simp [Ne.symm hy]
        · rw [Function.update_of_ne hz]
          exact hys z
  · rw [hrel.kind, hin']
    rw [hpar] at hz
    by_cases hzc : z = c
    · rw [hzc, Function.update_self, Option.some.injEq] at hz
      exact hz ▸ ⟨hkind, Or.inl hr⟩
    · rw [Function.update_of_ne hzc] at hz
      exact ⟨(h.parent z p hz).1, Or.inl (h.parent z p hz).2⟩
  · rw [hend, hrel.base]
    rcases (hin' z).mp hz with hz | rfl
    · exact h.bound z hz
    · exact ⟨hin.2.2.trans hbound, hbase⟩
  · obtain ⟨h1, h2⟩ := h.root z hz
    have hzc : z ≠ c := by
      rintro rfl
      exact hc (Or.inl hz)
    rw [hpar, Function.update_of_ne hzc, hrel.kind]
    exact ⟨h1, h2⟩
  · rw [hunm] at hz
    rcases (hin' z).mp hz' with hz' | rfl
    · exact h.unmapped z hz hz'
    · simp [hu] at hz
  · -- the way up of the new child goes through the region
    rw [hpar] at hz ⊢
    by_cases hzc : z = c
    · subst hzc
      rcases hr with hr | hr
      · refine ⟨r, hr, .head (Function.update_self _ _ _) (.refl r)⟩
      · obtain ⟨q, hq⟩ := Option.ne_none_iff_exists'.mp hr
        obtain ⟨root, hroot, hb⟩ := h.below r q hq
        exact ⟨root, hroot, .head (Function.update_self _ _ _) (hb.link hcp)⟩
    · rw [Function.update_of_ne hzc] at hz
      obtain ⟨root, hroot, hb⟩ := h.below z p hz
      exact ⟨root, hroot, hb.link hcp⟩

/-- A vmar without children is taken out of the forest. -/
theorem vmarUnlink (h : VmarsOk roots v) (hp : v.parent c = some r)
    (hleaf : ∀ z, v.parent z ≠ some c) :
    ∃ A B v', v.ChildrenOk r (A ++ c :: B) ∧ v.vmarUnlink r c = some v' ∧ VmarsOk roots v' ∧
      v'.ChildrenOk r (A ++ B) ∧ Relinked v v' r (A ++ c :: B) ∧
      v'.parent = Function.update v.parent c none ∧
      v'.unmapped = Function.update v.unmapped c true := by
  obtain ⟨xs, hok, hxs⟩ := h.children r
  obtain ⟨A, B, rfl⟩ := List.append_of_mem ((hxs c).mpr hp)
  have hr := (h.parent c r hp).2
  have hbound := (h.bound r hr).1
  obtain ⟨v', e, h', hrel, hpar, hunm⟩ := hok.vmarUnlink (by omega) fun x hx => (hxs x).mp hx
  refine ⟨A, B, v', hok, e, ?_, h', hrel, hpar, hunm⟩
  have hroot : ∀ z ∈ roots, z ≠ c := by
    rintro z hz rfl
    simp [(h.root z hz).1] at hp
  have hin' : ∀ z, v'.InTree roots z ↔ v.InTree roots z ∧ z ≠ c := by
    intro z
    rw [InTree, InTree, hpar]
    by_cases hz : z = c
    · simpa [hz] using fun hc => hroot c hc rfl
    · simp [hz]
  have hfirst : v'.vmarFirstPage = v.vmarFirstPage := by
    funext z
    rw [vmarFirstPage, vmarFirstPage, hrel.base]
  have hend : v'.pageEnd = v.pageEnd := by
    funext z
    rw [pageEnd, pageEnd, hfirst, hrel.pageCount]
  have hother : ∀ z p, v'.parent z = some p → z ≠ c ∧ v.parent z = some p := by
    intro z p hz
    rw [hpar] at hz
    by_cases hzc : z = c
    · simp [hzc] at hz
    · rw [Function.update_of_ne hzc] at hz
      exact ⟨hzc, hz⟩
  obtain ⟨rank, hrank⟩ := h.ranked
  have hnd := hok.tree.nodup
  refine ⟨fun y => ?_, fun z p hz => ?_, fun z hz => ?_, fun z hz => ?_, fun z hz hz' => ?_,
    ⟨_, hpar ▸ hrank.unlink⟩, fun z p hz => ?_⟩
  · by_cases hy : y = r
    · subst hy
      refine ⟨_, h', fun z => ⟨fun hz => ?_, fun hz => ?_⟩⟩
      · have hzc : z ≠ c := by
          rintro rfl
          exact (List.nodup_cons.mp (List.nodup_middle.mp hnd)).1 hz
        rw [hpar, Function.update_of_ne hzc, ← hxs]
        simp only [List.mem_append, List.mem_cons] at hz ⊢
        tauto
      · obtain ⟨hzc, hz⟩ := hother z y hz
        rw [← hxs] at hz
        simp only [List.mem_append, List.mem_cons, hzc, false_or] at hz ⊢
        exact hz
    · obtain ⟨ys, hyok, hys⟩ := h.children y
      refine ⟨ys, h.children_other hrel hy (fun z hz => Or.inr ((hxs z).mp hz)) (Or.inr hp) hyok hys,
        fun z => ?_⟩
      rw [hpar]
      by_cases hz : z = c
      · rw [hz, Function.update_self, hys, hp]
        simp [Ne.symm hy]
      · rw [Function.update_of_ne hz]
        exact hys z
  · obtain ⟨hzc, hz⟩ := hother z p hz
    rw [hrel.kind, hin']
    refine ⟨(h.parent z p hz).1, (h.parent z p hz).2, ?_⟩
    rintro rfl
    exact hleaf z hz
  · rw [hend, hrel.base]
    exact h.bound z ((hin' z).mp hz).1
  · rw [hpar, Function.update_of_ne (hroot z hz), hrel.kind]
    exact h.root z hz
  · obtain ⟨hin, hzc⟩ := (hin' z).mp hz'
    rw [hunm, Function.update_of_ne hzc] at hz
    exact h.unmapped z hz hin
  · obtain ⟨hzc, hz⟩ := hother z p hz
    obtain ⟨root, hroot', hb⟩ := h.below z p hz
    exact ⟨root, hroot', hpar ▸ hb.unlink hleaf hzc⟩

/-- The pages of the vmars are nested. -/
theorem nested (h : VmarsOk roots v) : Nested v.parent v.pages := by
  refine ⟨fun x p hp => ?_, fun x y p b hx hy hbx hby => ?_⟩
  · obtain ⟨xs, hok, hxs⟩ := h.children p
    have hm := hok.mem ((hxs x).mpr hp)
    exact Set.Ico_subset_Ico hm.1 hm.2.2
  · obtain ⟨xs, hok, hxs⟩ := h.children p
    exact hok.packed.eq_of_mem ((hxs x).mpr hx) ((hxs y).mpr hy) hbx hby

end VmarsOk

end Vmars

end Tomato
