import Tomato.Mem.Vmar.Invariant

/-!
# Looking up an address

The search of `vmar_find_mapping` goes down to the only vmar without children that has the
page of the address, and it is done after as many rounds as the tree is high.
-/

namespace Tomato

open RbTree Ranges Forest

namespace Vmars

variable {v v' : Vmars} {roots : Set ℕ} {r m x address n fuel : ℕ} {xs : List ℕ}

namespace VmarsOk

/-- The comparison of an address with a child. -/
theorem addressFindCmp (h : VmarsOk roots v) (hp : v.parent x = some r) (address : ℕ) :
    (v.vmarAddressFindCmp address x = .lt ↔ address / 4096 < v.vmarFirstPage x) ∧
    (v.vmarAddressFindCmp address x = .gt ↔ v.pageEnd x ≤ address / 4096) := by
  have hb := (h.bound x (Or.inr (by simp [hp]))).1
  have hle : v.vmarFirstPage x ≤ v.pageEnd x := Nat.le_add_right _ _
  rw [vmarAddressFindCmp, PAGE_SHIFT, Nat.shiftRight_eq_div_pow, vmarEndPage_eq (by omega)]
  simp only [show 2 ^ 12 = 4096 from rfl]
  split
  · simp
    omega
  · split <;> simp <;> omega

theorem mem_pages_iff (h : VmarsOk roots v) (hp : v.parent x = some r) :
    address / 4096 ∈ v.pages x ↔ v.vmarAddressFindCmp address x = .eq := by
  obtain ⟨h1, h2⟩ := h.addressFindCmp hp address
  rw [pages, Set.mem_Ico]
  cases hcmp : v.vmarAddressFindCmp address x <;> rw [hcmp] at h1 h2 <;> simp at h1 h2 ⊢ <;> omega

/-- `rb_find` finds the child with the page of the address. -/
theorem find_address (h : VmarsOk roots v) (r address : ℕ) :
    (∀ x, find (v.vmarAddressFindCmp address) (v.children r) = some x →
      v.parent x = some r ∧ address / 4096 ∈ v.pages x) ∧
    (find (v.vmarAddressFindCmp address) (v.children r) = none →
      ∀ x, v.parent x = some r → address / 4096 ∉ v.pages x) := by
  obtain ⟨xs, hok, hxs⟩ := h.children r
  have hlist := hok.tree.toList
  have hord : Ordered (v.vmarAddressFindCmp address) xs := by
    refine List.Pairwise.imp_of_mem (fun {x y} hx hy hle => ?_) hok.packed.pairwise
    obtain ⟨x1, x2⟩ := h.addressFindCmp ((hxs x).mp hx) address
    obtain ⟨y1, y2⟩ := h.addressFindCmp ((hxs y).mp hy) address
    have := hok.mem hx
    have := hok.mem hy
    rw [x1, x2, y1, y2]
    omega
  refine ⟨fun x he => ?_, fun he x hx => ?_⟩
  · obtain ⟨hx, heq⟩ := find_some he
    rw [hlist, hxs] at hx
    exact ⟨hx, (h.mem_pages_iff hx).mpr heq⟩
  · rw [h.mem_pages_iff hx]
    exact find_eq_none (hlist.symm ▸ hord) he x (hlist.symm ▸ (hxs x).mpr hx)

end VmarsOk

/-- What the search for an address is to find below a region. -/
def LeafAt (v : Vmars) (root address : ℕ) : Option ℕ → Prop
  | some m => Below v.parent m root ∧ v.kind m ≠ .region ∧ address / 4096 ∈ v.pages m
  | none => ∀ m, Below v.parent m root → v.kind m ≠ .region → address / 4096 ∉ v.pages m

namespace VmarsOk

/-- The search ends, and finds what there is. -/
theorem vmarFindLeaf {rank : ℕ → ℕ} (h : VmarsOk roots v) (hrank : Ranked v.parent rank)
    (hkind : v.kind r = .region) :
    ∃ res, (∀ fuel, rank r < fuel → v.vmarFindLeaf address fuel r = some res) ∧
      LeafAt v r address res := by
  induction hn : rank r using Nat.strong_induction_on generalizing r with
  | _ n ih =>
    subst hn
    have hstep : ∀ fuel, v.vmarFindLeaf address (fuel + 1) r =
        (find (v.vmarAddressFindCmp address) (v.children r)).elim (some none) fun x =>
          if v.kind x = .region then v.vmarFindLeaf address fuel x else some (some x) := by
      intro fuel
      simp only [Vmars.vmarFindLeaf, vmarFindInternal, hkind, ne_eq, not_true_eq_false, if_false,
        Option.bind_eq_bind, Option.bind_some]
      cases find (v.vmarAddressFindCmp address) (v.children r) <;> rfl
    obtain ⟨hsome, hnone⟩ := h.find_address r address
    -- what is below the region and not the region itself is below a child
    have hchild : ∀ m, Below v.parent m r → v.kind m ≠ .region →
        ∃ c, v.parent c = some r ∧ Below v.parent m c := by
      intro m hm hk
      rcases Relation.ReflTransGen.cases_tail hm with rfl | ⟨c, hmc, hc⟩
      · exact absurd hkind hk
      · exact ⟨c, hc, hmc⟩
    cases hf : find (v.vmarAddressFindCmp address) (v.children r) with
    | none =>
      refine ⟨none, fun fuel hfuel => ?_, fun m hm hk hpg => ?_⟩
      · obtain ⟨k, rfl⟩ : ∃ k, fuel = k + 1 := ⟨fuel - 1, by omega⟩
        rw [hstep, hf, Option.elim_none]
      · obtain ⟨c, hc, hmc⟩ := hchild m hm hk
        exact hnone hf c hc (h.nested.subset hmc hpg)
    | some x =>
      obtain ⟨hx, hpx⟩ := hsome x hf
      have hxr := hrank x r hx
      by_cases hk : v.kind x = .region
      · obtain ⟨res, hres, hleaf⟩ := ih (rank x) hxr hk rfl
        refine ⟨res, fun fuel hfuel => ?_, ?_⟩
        · obtain ⟨k, rfl⟩ : ∃ k, fuel = k + 1 := ⟨fuel - 1, by omega⟩
          rw [hstep, hf, Option.elim_some]
          simp only [hk, if_true]
          exact hres k (by omega)
        · cases res with
          | some m => exact ⟨hleaf.1.tail hx, hleaf.2⟩
          | none =>
            intro m hm hkm hpg
            obtain ⟨c, hc, hmc⟩ := hchild m hm hkm
            obtain rfl := h.nested.apart c x r _ hc hx (h.nested.subset hmc hpg) hpx
            exact hleaf m hmc hkm hpg
      · refine ⟨some x, fun fuel hfuel => ?_, .head hx (.refl r), hk, hpx⟩
        obtain ⟨k, rfl⟩ : ∃ k, fuel = k + 1 := ⟨fuel - 1, by omega⟩
        rw [hstep, hf, Option.elim_some]
        simp only [hk, if_false]

/-- There is at most one vmar that is no region below a vmar and has a given page. -/
theorem leaf_unique (h : VmarsOk roots v) (hm : Below v.parent m r) (hx : Below v.parent x r)
    (hkm : v.kind m ≠ .region) (hkx : v.kind x ≠ .region) {page : ℕ} (hpm : page ∈ v.pages m)
    (hpx : page ∈ v.pages x) : m = x :=
  h.nested.eq_of_leaves hm hx (h.leaf_of_kind hkm) (h.leaf_of_kind hkx) hpm hpx

end VmarsOk

end Vmars

end Tomato
