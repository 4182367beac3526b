import Tomato.Lib.Blocks

/-!
# Canonical tilings

A tiling in which no two buddies below the order `K` are both present is as coarse as
a tiling by blocks up to the order `K` can be. It is determined by the set it covers.
-/

namespace Blocks

/-- No two buddies of an order below `K` are both in the set. -/
def NoBuddies (K : ℕ) (S : Set Block) : Prop := ∀ b ∈ S, b.order < K → b.buddy ∉ S

variable {K : ℕ} {S T : Set Block} {M : Set ℕ} {b c : Block}

theorem NoBuddies.mono (h : NoBuddies K T) (hs : S ⊆ T) : NoBuddies K S := fun b hb hk hbud =>
  h b (hs hb) hk (hs hbud)

/-- A new block whose buddy is not there makes no pair of buddies. -/
theorem NoBuddies.insert (h : NoBuddies K S) (hb : b.order < K → b.buddy ∉ S) :
    NoBuddies K (S ∪ {b}) := by
  rintro c (hc | rfl) hk (hbud | hbud)
  · exact h c hc hk hbud
  · obtain rfl : c.buddy = b := hbud
    exact hb hk (c.buddy_buddy.symm ▸ hc)
  · exact hb hk hbud
  · have := congrArg Block.addr (show c.buddy = c from hbud)
    simp only [Block.buddy] at this
    have hxor := congrArg (c.addr ^^^ ·) this
    simp [← Nat.xor_assoc] at hxor

namespace Tiling

/-- A block of the tiling that meets a larger aligned block lies inside it, when the
larger one contains some block of the tiling properly. -/
theorem subset_of_mem (h : Tiling S M) (hb : b ∈ S) (hc : c.Aligned) (hbc : b.order < c.order)
    (hmem : b.addr ∈ c.cells) {e : Block} (he : e ∈ S) {a : ℕ} (hae : a ∈ e.cells)
    (hac : a ∈ c.cells) : e.order < c.order := by
  by_contra hge
  have hce : c.cells ⊆ e.cells :=
    Block.cells_subset hc (h.aligned e he) (Nat.le_of_not_lt hge) hac hae
  have := h.eq_of_mem hb he b.addr_mem_cells (hce hmem)
  exact hge (this ▸ hbc)

/-- Blocks of the tiling that are properly inside a larger aligned block which is
covered are not all apart from their buddies. -/
theorem exists_buddies (h : Tiling S M) (hb : b ∈ S) (hc : c.Aligned) (hcM : c.cells ⊆ M)
    (hbc : b.order < c.order) (hmem : b.addr ∈ c.cells) :
    ∃ e ∈ S, e.order < c.order ∧ e.buddy ∈ S := by
  -- the smallest block that meets `c`
  obtain ⟨k, ⟨e, he, rfl, ae, hae⟩, hmin⟩ : ∃ k, (∃ e ∈ S, e.order = k ∧ ∃ a ∈ e.cells, a ∈ c.cells) ∧
      ∀ e ∈ S, (∃ a ∈ e.cells, a ∈ c.cells) → k ≤ e.order := by
    have hex : ∃ k, ∃ e ∈ S, e.order = k ∧ ∃ a ∈ e.cells, a ∈ c.cells :=
      ⟨_, b, hb, rfl, _, b.addr_mem_cells, hmem⟩
    classical
    refine ⟨Nat.find hex, Nat.find_spec hex, fun e he ha => ?_⟩
    exact Nat.find_min' hex ⟨e, he, rfl, ha⟩
  have heo := h.subset_of_mem hb hc hbc hmem he hae.1 hae.2
  have hal := h.aligned e he
  have hpc : e.parent.cells ⊆ c.cells :=
    Block.cells_subset (Block.parent_aligned hal) hc heo
      (by rw [Block.cells_parent hal]; exact Or.inl hae.1) hae.2
  have hbud : e.buddy.addr ∈ c.cells :=
    hpc (by rw [Block.cells_parent hal]; exact Or.inr e.buddy.addr_mem_cells)
  obtain ⟨f, hf, haf⟩ := h.exists_addr_buddy he (hcM hbud)
  have hfc : f.addr ∈ c.cells := haf ▸ hbud
  have hle := hmin f hf ⟨_, f.addr_mem_cells, hfc⟩
  refine ⟨e, he, heo, ?_⟩
  rcases hle.eq_or_lt with heq | hlt
  · rw [show e.buddy = f from Block.eq_of_cells_eq (b := e.buddy) heq haf.symm]
    exact hf
  · -- a larger block around the buddy would also hold `e`
    exfalso
    have hpf : e.parent.cells ⊆ f.cells :=
      Block.cells_subset (Block.parent_aligned hal) (h.aligned f hf) hlt
        (by rw [Block.cells_parent hal]; exact Or.inr e.buddy.addr_mem_cells)
        (haf ▸ f.addr_mem_cells)
    have hef : e.addr ∈ f.cells :=
      hpf (by rw [Block.cells_parent hal]; exact Or.inl e.addr_mem_cells)
    have := h.eq_of_mem he hf e.addr_mem_cells hef
    exact absurd hlt (by simp [this])

theorem subset_of_noBuddies (hS : Tiling S M) (hT : Tiling T M) (hSb : NoBuddies K S)
    (hTb : NoBuddies K T) (hSK : ∀ b ∈ S, b.order ≤ K) (hTK : ∀ b ∈ T, b.order ≤ K) : S ⊆ T := by
  intro b hb
  obtain ⟨c, hc, hbc⟩ := hT.mem_cover.mp (hS.subset hb b.addr_mem_cells)
  rcases Nat.lt_trichotomy b.order c.order with hlt | heq | hgt
  · obtain ⟨e, he, heo, hbud⟩ := hS.exists_buddies hb (hT.aligned c hc) (hT.subset hc) hlt hbc
    exact absurd hbud (hSb e he (heo.trans_le (hTK c hc)))
  · have hdvd : 2 ^ c.order ∣ b.addr := heq ▸ hS.aligned b hb
    rw [Block.eq_of_cells_eq heq (Block.addr_eq_of_dvd (hT.aligned c hc) hbc hdvd).symm]
    exact hc
  · have hsub : c.cells ⊆ b.cells :=
      Block.cells_subset (hT.aligned c hc) (hS.aligned b hb) hgt.le hbc b.addr_mem_cells
    obtain ⟨e, he, heo, hbud⟩ := hT.exists_buddies hc (hS.aligned b hb) (hS.subset hb) hgt
      (hsub c.addr_mem_cells)
    exact absurd hbud (hTb e he (heo.trans_le (hSK b hb)))

/-- A set has one tiling without buddies. -/
theorem eq_of_noBuddies (hS : Tiling S M) (hT : Tiling T M) (hSb : NoBuddies K S)
    (hTb : NoBuddies K T) (hSK : ∀ b ∈ S, b.order ≤ K) (hTK : ∀ b ∈ T, b.order ≤ K) : S = T :=
  (hS.subset_of_noBuddies hT hSb hTb hSK hTK).antisymm (hT.subset_of_noBuddies hS hTb hSb hTK hSK)

/-- A part of a tiling tiles what the rest leaves. -/
theorem left (h : Tiling (S ∪ T) M) (hd : Disjoint S T) : Tiling S (M \ ⋃ b ∈ T, b.cells) where
  aligned := fun b hb => h.aligned b (Or.inl hb)
  disjoint := h.disjoint.subset Set.subset_union_left
  cover := by
    ext a
    simp only [Set.mem_iUnion, exists_prop, Set.mem_sdiff, not_exists, not_and, h.mem_cover]
    constructor
    · rintro ⟨b, hb, hab⟩
      refine ⟨⟨b, Or.inl hb, hab⟩, fun c hc hac => ?_⟩
      have := h.eq_of_mem (Or.inl hb) (Or.inr hc) hab hac
      exact Set.disjoint_left.mp hd hb (this ▸ hc)
    · rintro ⟨⟨b, hb | hb, hab⟩, hnot⟩
      · exact ⟨b, hb, hab⟩
      · exact absurd hab (hnot b hb)

end Tiling

end Blocks
