import Tomato.Lib.Ranges
import Tomato.Mem.Vmar.Basic

/-!
# The children of a region

`ChildrenOk` says that the tree, the links and the gaps of a region are those of a list of
children, whose ranges follow one another inside of the region. A new child is put into the
list, and a child is taken out of it.
-/

namespace Tomato

open RbTree Ranges

theorem sub64_eq {x y : ℕ} (h : y ≤ x) (hx : x < 2 ^ 64) : sub64 x y = x - y := by
  rw [sub64, show x + 2 ^ 64 - y = (x - y) + 2 ^ 64 by omega, Nat.add_mod_right,
    Nat.mod_eq_of_lt (by omega)]

namespace Vmars

section

variable (v : Vmars)

/-- The end of a range, as a number without bounds. -/
def pageEnd (vmar : ℕ) : ℕ := v.vmarFirstPage vmar + v.pageCount vmar

/-- The tree and the links of the region are right for the gaps of its children. -/
def TreeOk (r : ℕ) (xs : List ℕ) : Prop :=
  LinkedTree v.gap v.maxGap (v.children r) (v.links r) xs

structure ChildrenOk (r : ℕ) (xs : List ℕ) : Prop where
  tree : v.TreeOk r xs
  packed : Packed v.vmarFirstPage v.pageEnd (v.vmarFirstPage r) (v.pageEnd r) xs
  gaps : Gaps v.vmarFirstPage v.pageEnd v.gap (v.vmarFirstPage r) xs

/-- Only gaps of the nodes `xs` are other ones. -/
def Regapped (v v' : Vmars) (xs : List ℕ) : Prop :=
  ∃ gap maxGap, v' = { v with gap := gap, maxGap := maxGap } ∧
    ∀ z, z ∉ xs → gap z = v.gap z ∧ maxGap z = v.maxGap z

/-- Only the children `xs` of the region `r` are linked in another way. -/
structure Relinked (v v' : Vmars) (r : ℕ) (xs : List ℕ) : Prop where
  refCount : v'.refCount = v.refCount
  base : v'.base = v.base
  pageCount : v'.pageCount = v.pageCount
  kind : v'.kind = v.kind
  locked : v'.locked = v.locked
  pageTableLock : v'.pageTableLock = v.pageTableLock
  children : ∀ r', r' ≠ r → v'.children r' = v.children r' ∧ v'.leftmost r' = v.leftmost r'
  node : ∀ z, z ∉ xs → v'.gap z = v.gap z ∧ v'.maxGap z = v.maxGap z ∧ v'.prev z = v.prev z ∧
    v'.next z = v.next z

end

variable {v v' : Vmars} {r c x y n : ℕ} {xs A B : List ℕ}

theorem vmarEndPage_eq (h : v.pageEnd x < 2 ^ 64) : v.vmarEndPage x = v.pageEnd x :=
  Nat.mod_eq_of_lt h

section

variable {tree : RbTree.Tree ℕ} {links : LinkedNodes ℕ} {m : ℕ → ℕ}

theorem links_setChildren : (v.setChildren r tree links m).links r = links := by
  ext <;> simp [Vmars.links, setChildren]

theorem children_setChildren : (v.setChildren r tree links m).children r = tree := by
  simp [setChildren]

theorem links_addChild : (v.addChild r c tree links m).links r = links := by
  ext <;> simp [Vmars.links, addChild, setChildren]

theorem children_addChild : (v.addChild r c tree links m).children r = tree := by
  simp [addChild, setChildren]

end

namespace ChildrenOk

theorem mem (h : v.ChildrenOk r xs) (hx : x ∈ xs) : v.vmarFirstPage r ≤ v.vmarFirstPage x ∧
    v.vmarFirstPage x < v.pageEnd x ∧ v.pageEnd x ≤ v.pageEnd r := h.packed.mem hx

theorem congr (h : v.ChildrenOk r xs) (hr : v'.children r = v.children r ∧
      v'.leftmost r = v.leftmost r)
    (hbase : ∀ z, z = r ∨ z ∈ xs → v'.base z = v.base z ∧ v'.pageCount z = v.pageCount z)
    (hnode : ∀ z ∈ xs, v'.gap z = v.gap z ∧ v'.maxGap z = v.maxGap z ∧ v'.prev z = v.prev z ∧
      v'.next z = v.next z) : v'.ChildrenOk r xs := by
  have hfirst : ∀ z, z = r ∨ z ∈ xs → v'.vmarFirstPage z = v.vmarFirstPage z := fun z hz => by
    rw [vmarFirstPage, vmarFirstPage, (hbase z hz).1]
  have hend : ∀ z, z = r ∨ z ∈ xs → v'.pageEnd z = v.pageEnd z := fun z hz => by
    rw [pageEnd, pageEnd, hfirst z hz, (hbase z hz).2]
  refine ⟨?_, ?_, ?_⟩
  · rw [TreeOk, hr.1]
    exact h.tree.congr (fun z hz => (hnode z hz).1) (fun z hz => (hnode z hz).2.1) hr.2
      (fun z hz => (hnode z hz).2.2.1) fun z hz => (hnode z hz).2.2.2
  · rw [hfirst r (Or.inl rfl), hend r (Or.inl rfl)]
    exact h.packed.congr (fun z hz => hfirst z (Or.inr hz)) fun z hz => hend z (Or.inr hz)
  · rw [hfirst r (Or.inl rfl)]
    exact h.gaps.congr (fun z hz => hfirst z (Or.inr hz)) (fun z hz => hend z (Or.inr hz))
      fun z hz => (hnode z hz).1

end ChildrenOk

/-- The gap of a child is measured again. -/
theorem vmarGapUpdate_spec (h : v.TreeOk r (A ++ x :: B)) (hp : v.parent x = some r)
    (hpack : Packed v.vmarFirstPage v.pageEnd (v.vmarFirstPage r) (v.pageEnd r) (A ++ x :: B))
    (hr : v.pageEnd r < 2 ^ 64) :
    ∃ gap maxGap, v.vmarGapUpdate x = some { v with gap := gap, maxGap := maxGap } ∧
      TreeOk { v with gap := gap, maxGap := maxGap } r (A ++ x :: B) ∧
      gap x = v.vmarFirstPage x - endOf v.pageEnd (v.vmarFirstPage r) A ∧
      (∀ z, z ≠ x → gap z = v.gap z) ∧ ∀ z, z ∉ A ++ x :: B → maxGap z = v.maxGap z := by
  have hA := (Packed.append_iff.mp hpack).1
  have hx := hpack.mem (show x ∈ A ++ x :: B by simp)
  have hprev : v.prev x = A.getLast? := h.links.prev A x B rfl
  have hstart : v.gapStart r x = endOf v.pageEnd (v.vmarFirstPage r) A := by
    rw [gapStart, hprev, endOf]
    cases hl : A.getLast? with
    | none => rfl
    | some p =>
      have := hA.mem (List.mem_of_getLast? hl)
      exact vmarEndPage_eq (by omega)
  have hle := hA.endOf_le
  obtain ⟨gap, hgap⟩ : ∃ g, g = Function.update v.gap x
    (v.vmarFirstPage x - endOf v.pageEnd (v.vmarFirstPage r) A) := ⟨_, rfl⟩
  have hsame : ∀ z, z ≠ x → gap z = v.gap z := fun z hz => by rw [hgap, Function.update_of_ne hz]
  obtain ⟨h1, h2⟩ := LinkedTree.update h (by simp) hsame
  refine ⟨gap, propagateFrom gap x (v.children r) v.maxGap, ?_, h1, ?_, hsame, h2⟩
  · rw [vmarGapUpdate, hp, Option.bind_eq_bind, Option.bind_some, hstart,
      sub64_eq hle.2 (show v.vmarFirstPage x < 2 ^ 64 by omega), ← hgap]
  · rw [hgap, Function.update_self]

/-- The gap before the first of the children `B` is measured again. -/
theorem vmarGapUpdate_head (h : v.TreeOk r (A ++ B)) (hp : ∀ x ∈ B, v.parent x = some r)
    (hpack : Packed v.vmarFirstPage v.pageEnd (v.vmarFirstPage r) (v.pageEnd r) (A ++ B))
    (hr : v.pageEnd r < 2 ^ 64) (hA : Gaps v.vmarFirstPage v.pageEnd v.gap (v.vmarFirstPage r) A)
    (hB : Gaps v.vmarFirstPage v.pageEnd v.gap n B) :
    ∃ v', v.vmarGapUpdateNext B.head? = some v' ∧ Regapped v v' (A ++ B) ∧
      v'.ChildrenOk r (A ++ B) := by
  cases B with
  | nil =>
    rw [List.append_nil] at h hpack
    refine ⟨v, rfl, ⟨v.gap, v.maxGap, rfl, fun _ _ => ⟨rfl, rfl⟩⟩, ?_⟩
    rw [List.append_nil]
    exact ⟨h, hpack, hA⟩
  | cons x B =>
    obtain ⟨gap, maxGap, e, ht, hx, hgap, hmax⟩ := vmarGapUpdate_spec h (hp x (by simp)) hpack hr
    have hnd := hpack.nodup
    have hne : ∀ z ∈ A ++ B, z ≠ x := by
      rintro z hz rfl
      exact (List.nodup_cons.mp (List.nodup_middle.mp hnd)).1 hz
    refine ⟨_, e, ⟨gap, maxGap, rfl, fun z hz => ⟨hgap z ?_, hmax z hz⟩⟩, ht, hpack, ?_⟩
    · rintro rfl
      simp at hz
    · refine Gaps.append_cons_iff.mpr ⟨?_, hx, ?_⟩
      · exact hA.congr (fun _ _ => rfl) (fun _ _ => rfl) fun z hz => hgap z (hne z (by simp [hz]))
      · exact hB.2.congr (fun _ _ => rfl) (fun _ _ => rfl) fun z hz => hgap z (hne z (by simp [hz]))

/-- The gaps of a new child and of the one after it are measured. -/
theorem vmarGapUpdate_new (h : v.TreeOk r (A ++ c :: B))
    (hp : ∀ x ∈ A ++ c :: B, v.parent x = some r)
    (hpack : Packed v.vmarFirstPage v.pageEnd (v.vmarFirstPage r) (v.pageEnd r) (A ++ c :: B))
    (hr : v.pageEnd r < 2 ^ 64) (hA : Gaps v.vmarFirstPage v.pageEnd v.gap (v.vmarFirstPage r) A)
    (hB : Gaps v.vmarFirstPage v.pageEnd v.gap n B) :
    ∃ v', ((v.vmarGapUpdate c).bind fun v => v.vmarGapUpdateNext (v.next c)) = some v' ∧
      Regapped v v' (A ++ c :: B) ∧ v'.ChildrenOk r (A ++ c :: B) := by
  have hnext : v.next c = B.head? := h.links.next A c B rfl
  obtain ⟨gap, maxGap, e, ht, hg, hgap, hmax⟩ := vmarGapUpdate_spec h (hp c (by simp)) hpack hr
  have hne : ∀ z ∈ A ++ B, gap z = v.gap z := by
    refine fun z hz => hgap z ?_
    rintro rfl
    exact (List.nodup_cons.mp (List.nodup_middle.mp hpack.nodup)).1 hz
  obtain ⟨w, hw⟩ : ∃ w : Vmars, w = { v with gap := gap, maxGap := maxGap } := ⟨_, rfl⟩
  rw [← hw] at e ht
  have hsplit : A ++ c :: B = (A ++ [c]) ++ B := by simp
  have hgA : Gaps w.vmarFirstPage w.pageEnd w.gap (w.vmarFirstPage r) (A ++ [c]) := by
    rw [hw]
    refine Gaps.append_cons_iff.mpr ⟨?_, hg, trivial⟩
    exact hA.congr (fun _ _ => rfl) (fun _ _ => rfl) fun z hz => hne z (by simp [hz])
  have hgB : Gaps w.vmarFirstPage w.pageEnd w.gap n B := by
    rw [hw]
    exact hB.congr (fun _ _ => rfl) (fun _ _ => rfl) fun z hz => hne z (by simp [hz])
  obtain ⟨v', e', ⟨gap', maxGap', he, hsame⟩, h'⟩ := vmarGapUpdate_head (hsplit ▸ ht)
    (fun x hx => by
      rw [hw]
      exact hp x (by simp [hx]))
    (by
      rw [hw, ← hsplit]
      exact hpack)
    (by
      rw [hw]
      exact hr) hgA hgB
  rw [← hsplit] at hsame h'
  refine ⟨v', ?_, ⟨gap', maxGap', ?_, fun z hz => ?_⟩, h'⟩
  · have hnextw : w.next c = B.head? := by rw [hw, ← hnext]
    rw [e, Option.bind_some, hnextw, e']
  · rw [he, hw]
  · have hzc : z ≠ c := by
      rintro rfl
      simp at hz
    obtain ⟨h1, h2⟩ := hsame z hz
    rw [h1, h2, hw]
    exact ⟨hgap z hzc, hmax z hz⟩

/-- The comparison of a range with the ranges of the children. -/
theorem compareRanges_cases (hc : v.pageEnd c < 2 ^ 64) (hy : v.pageEnd y < 2 ^ 64)
    (hpos : v.vmarFirstPage y < v.pageEnd y) (hposc : v.vmarFirstPage c < v.pageEnd c) :
    (v.vmarCompareRanges c y = .lt ↔ v.pageEnd c ≤ v.vmarFirstPage y) ∧
    (v.vmarCompareRanges c y = .gt ↔ v.pageEnd y ≤ v.vmarFirstPage c) := by
  rw [vmarCompareRanges, vmarEndPage_eq hc, vmarEndPage_eq hy]
  split
  · simp
    omega
  · split <;> simp <;> omega

namespace ChildrenOk

theorem compareRanges (h : v.ChildrenOk r xs) (hr : v.pageEnd r < 2 ^ 64)
    (hc : v.pageEnd c < 2 ^ 64) (hpos : v.vmarFirstPage c < v.pageEnd c) (hy : y ∈ xs) :
    (v.vmarCompareRanges c y = .lt ↔ v.pageEnd c ≤ v.vmarFirstPage y) ∧
    (v.vmarCompareRanges c y = .gt ↔ v.pageEnd y ≤ v.vmarFirstPage c) := by
  have := h.mem hy
  exact compareRanges_cases hc (by omega) this.2.1 hpos

theorem ordered (h : v.ChildrenOk r xs) (hr : v.pageEnd r < 2 ^ 64)
    (hc : v.pageEnd c < 2 ^ 64) (hpos : v.vmarFirstPage c < v.pageEnd c) :
    Ordered (v.vmarCompareRanges c) xs := by
  refine List.Pairwise.imp_of_mem (fun {x y} hx hy hle => ?_) h.packed.pairwise
  obtain ⟨x1, x2⟩ := h.compareRanges hr hc hpos hx
  obtain ⟨y1, y2⟩ := h.compareRanges hr hc hpos hy
  have := h.mem hx
  have := h.mem hy
  rw [x1, x2, y1, y2]
  omega

/-- The search by a range finds a child exactly if one overlaps the range. -/
theorem find_eq_none_iff (h : v.ChildrenOk r xs) (hr : v.pageEnd r < 2 ^ 64)
    (hc : v.pageEnd c < 2 ^ 64) (hpos : v.vmarFirstPage c < v.pageEnd c) :
    find (v.vmarCompareRanges c) (v.children r) = none ↔
      ∀ y ∈ xs, v.pageEnd c ≤ v.vmarFirstPage y ∨ v.pageEnd y ≤ v.vmarFirstPage c := by
  have hlist := h.tree.toList
  constructor
  · intro he y hy
    have hne := find_eq_none (hlist.symm ▸ h.ordered hr hc hpos) he y (hlist.symm ▸ hy)
    obtain ⟨h1, h2⟩ := h.compareRanges hr hc hpos hy
    rw [← h1, ← h2]
    cases hcmp : v.vmarCompareRanges c y with
    | lt => exact Or.inl rfl
    | gt => exact Or.inr rfl
    | eq => exact absurd hcmp hne
  · intro hall
    by_contra hne
    obtain ⟨y, he⟩ := Option.ne_none_iff_exists'.mp hne
    obtain ⟨hy, heq⟩ := find_some he
    rw [hlist] at hy
    obtain ⟨h1, h2⟩ := h.compareRanges hr hc hpos hy
    rcases hall y hy with hl | hl
    · simp [h1.mpr hl] at heq
    · simp [h2.mpr hl] at heq

/-- A child is put into the list, unless its range overlaps another one. -/
theorem vmarLinkInternal (h : v.ChildrenOk r xs) (hr : v.pageEnd r < 2 ^ 64)
    (hkind : v.kind r = .region) (hpar : v.parent c = none) (hne : c ≠ r)
    (hxs : ∀ x ∈ xs, v.parent x = some r) (hpos : v.vmarFirstPage c < v.pageEnd c)
    (hin : v.vmarFirstPage r ≤ v.vmarFirstPage c ∧ v.pageEnd c ≤ v.pageEnd r) :
    (v.vmarLinkInternal r c = none ∧
      ∃ y ∈ xs, ¬ (v.pageEnd c ≤ v.vmarFirstPage y ∨ v.pageEnd y ≤ v.vmarFirstPage c)) ∨
    ∃ A B v', xs = A ++ B ∧ v.vmarLinkInternal r c = some v' ∧ v'.ChildrenOk r (A ++ c :: B) ∧
      Relinked v v' r (A ++ c :: B) ∧ v'.parent = Function.update v.parent c (some r) ∧
      v'.unmapped = v.unmapped := by
  have hc : v.pageEnd c < 2 ^ 64 := by omega
  have hcx : c ∉ xs := fun hm => by simpa [hpar] using hxs c hm
  have htree : LinkedTree (Function.update v.gap c 0) (Function.update v.maxGap c 0) (v.children r)
      (v.links r) xs := by
    have hz : ∀ z ∈ xs, z ≠ c := by
      rintro z hz rfl
      exact hcx hz
    exact h.tree.congr (fun z hz' => Function.update_of_ne (hz z hz') _ _)
      (fun z hz' => Function.update_of_ne (hz z hz') _ _) rfl (fun _ _ => rfl) fun _ _ => rfl
  rcases htree.findAdd hcx (by simp) (h.ordered hr hc hpos) with
    ⟨y, hy, heq, e⟩ | ⟨A, B, tree, links, maxGap, rfl, hA, hB, e, h1, hmax, hlinks⟩
  · obtain ⟨h1, h2⟩ := h.compareRanges hr hc hpos hy
    refine Or.inl ⟨?_, y, hy, ?_⟩
    · rw [Vmars.vmarLinkInternal, if_neg (by simp [hkind]), if_neg (by simp [hpar])]
      simp only [e, Option.bind_eq_bind, Option.bind_some]
    · rw [← h1, ← h2]
      simp [heq]
  have hA' : ∀ y ∈ A, v.pageEnd y ≤ v.vmarFirstPage c := fun y hy =>
    (h.compareRanges hr hc hpos (List.mem_append_left _ hy)).2.mp (hA y hy)
  have hB' : ∀ y ∈ B, v.pageEnd c ≤ v.vmarFirstPage y := fun y hy =>
    (h.compareRanges hr hc hpos (List.mem_append_right _ hy)).1.mp (hB y hy)
  have hpack := h.packed.insert ⟨hin.1, hpos, hin.2⟩ hA' hB'
  have hgap : ∀ z ∈ A ++ B, Function.update v.gap c 0 z = v.gap z := by
    refine fun z hz => Function.update_of_ne ?_ _ _
    rintro rfl
    exact hcx hz
  obtain ⟨hgA, hgB⟩ := Gaps.append_iff.mp h.gaps
  obtain ⟨v1, hv1⟩ : ∃ v1, v1 = v.addChild r c tree links maxGap := ⟨_, rfl⟩
  have ht1 : v1.TreeOk r (A ++ c :: B) := by
    rw [hv1, TreeOk, links_addChild, children_addChild]
    exact h1
  have hp1 : ∀ x ∈ A ++ c :: B, v1.parent x = some r := by
    intro x hx
    rw [hv1]
    simp only [addChild]
    by_cases hxc : x = c
    · rw [hxc, Function.update_self]
    · rw [Function.update_of_ne hxc]
      refine hxs x ?_
      simp only [List.mem_append, List.mem_cons, hxc, false_or] at hx ⊢
      exact hx
  obtain ⟨v', e', ⟨gap', maxGap', he', hsame⟩, h'⟩ := vmarGapUpdate_new ht1 hp1
    (by
      rw [hv1]
      exact hpack)
    (by
      rw [hv1]
      exact hr)
    (by
      rw [hv1]
      exact hgA.congr (fun _ _ => rfl) (fun _ _ => rfl) fun z hz => hgap z (by simp [hz]))
    (by
      rw [hv1]
      exact hgB.congr (fun _ _ => rfl) (fun _ _ => rfl) fun z hz => hgap z (by simp [hz]))
  rw [hv1] at e' he' hsame
  refine Or.inr ⟨A, B, v', rfl, ?_, h', ⟨?_, ?_, ?_, ?_, ?_, ?_, fun r' hr' => ?_, fun z hz => ?_⟩,
    ?_, ?_⟩
  · rw [Vmars.vmarLinkInternal, if_neg (by simp [hkind]), if_neg (by simp [hpar])]
    simp only [e, Option.bind_eq_bind, Option.bind_some]
    exact e'
  iterate 6 rw [he']; rfl
  · rw [he']
    simp [addChild, setChildren, hr']
  · have hzc : z ≠ c := by
      rintro rfl
      simp at hz
    obtain ⟨h2, h3⟩ := hsame z hz
    rw [he']
    refine ⟨h2.trans (Function.update_of_ne hzc _ _), ?_, hlinks z hz⟩
    exact h3.trans ((hmax z hz).trans (Function.update_of_ne hzc _ _))
  · rw [he']
    rfl
  · rw [he']
    rfl

/-- A child is taken out of the list. -/
theorem vmarUnlink (h : v.ChildrenOk r (A ++ c :: B)) (hr : v.pageEnd r < 2 ^ 64)
    (hxs : ∀ x ∈ A ++ c :: B, v.parent x = some r) :
    ∃ v', v.vmarUnlink r c = some v' ∧ v'.ChildrenOk r (A ++ B) ∧ Relinked v v' r (A ++ c :: B) ∧
      v'.parent = Function.update v.parent c none ∧
      v'.unmapped = Function.update v.unmapped c true := by
  have hnext : v.next c = B.head? := h.tree.links.next A c B rfl
  obtain ⟨tree, maxGap, e, h1, hmax, hlinks⟩ := h.tree.erase
  obtain ⟨hgA, -, hgB⟩ := Gaps.append_cons_iff.mp h.gaps
  obtain ⟨v1, hv1⟩ : ∃ v1, v1 = v.setChildren r tree ((v.links r).eraseNode c) maxGap := ⟨_, rfl⟩
  have ht1 : v1.TreeOk r (A ++ B) := by
    rw [hv1, TreeOk, links_setChildren, children_setChildren]
    exact h1
  have hsub : ∀ z ∈ A ++ B, z ∈ A ++ c :: B := fun z hz => by
    simp only [List.mem_append, List.mem_cons] at hz ⊢
    tauto
  obtain ⟨v', e', ⟨gap', maxGap', he', hsame⟩, h'⟩ := vmarGapUpdate_head ht1
    (fun x hx => by
      rw [hv1]
      exact hxs x (by simp [hx]))
    (by
      rw [hv1]
      exact h.packed.remove)
    (by
      rw [hv1]
      exact hr)
    (by
      rw [hv1]
      exact hgA)
    (by
      rw [hv1]
      exact hgB)
  refine ⟨{ v' with
      parent := Function.update v'.parent c none
      unmapped := Function.update v'.unmapped c true }, ?_,
    h'.congr ⟨rfl, rfl⟩ (fun _ _ => ⟨rfl, rfl⟩) fun _ _ => ⟨rfl, rfl, rfl, rfl⟩,
    ⟨?_, ?_, ?_, ?_, ?_, ?_, fun r' hr' => ?_, fun z hz => ?_⟩, ?_, ?_⟩
  · simp only [Vmars.vmarUnlink, e, hnext, ← hv1, e', Option.bind_eq_bind, Option.bind_some]
  iterate 6 rw [he', hv1]; rfl
  · rw [he', hv1]
    simp [setChildren, hr']
  · obtain ⟨h2, h3⟩ := hsame z fun hc => hz (hsub z hc)
    rw [he', hv1] at *
    exact ⟨h2, h3.trans (hmax z hz), hlinks z hz⟩
  · rw [he', hv1]
    rfl
  · rw [he', hv1]
    rfl

end ChildrenOk

end Vmars

end Tomato
