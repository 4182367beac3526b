import Mathlib.Algebra.BigOperators.Intervals
import Tomato.Mem.Phys.Free

/-!
# Pages

A page of the added memory is inside a free block of the page level or above,
inside a live one, or split into smaller pieces, according to the block its first
byte is in. `Ok` ties the counters of the accounting to this: the pages of the
first kind are the available and the reserved ones, so the other two kinds and
the pages used before the allocator existed are the committed ones.
-/

namespace Tomato

open Blocks

/-- The numbers of the pages that start in `A`. -/
abbrev pagesIn (A : Set ℕ) : Set ℕ := marks 12 A

/-- The addresses in the blocks of `S` of the page level or above. -/
def wholeCells (S : Set Block) : Set ℕ := ⋃ b ∈ {b ∈ S | 12 ≤ b.order}, b.cells

/-- The addresses in the pieces of pages among the blocks of `S`. -/
def pieceCells (S : Set Block) : Set ℕ := ⋃ b ∈ {b ∈ S | b.order < 12}, b.cells

variable {S T : Set Block} {fl : FreeLists} {a : ℕ}

theorem mem_wholeCells : a ∈ wholeCells S ↔ ∃ b ∈ S, 12 ≤ b.order ∧ a ∈ b.cells := by
  simp [wholeCells, and_assoc]

theorem mem_pieceCells : a ∈ pieceCells S ↔ ∃ b ∈ S, b.order < 12 ∧ a ∈ b.cells := by
  simp [pieceCells, and_assoc]

/-- The pages of the free blocks of the page level or above are as many as the
lengths of the lists say. -/
theorem ncard_pagesIn_freeBlocks {M : Set ℕ} (ht : Tiling (freeBlocks fl) M)
    (hn : ∀ l, (fl l).Nodup) (hempty : ∀ l, 16 ≤ l → fl l = []) :
    (pagesIn (wholeCells (freeBlocks fl))).ncard = freePages fl := by
  classical
  let pages (x : (_ : ℕ) × ℕ) : Finset ℕ := Finset.Ico (x.2 / 2 ^ 12) (x.2 / 2 ^ 12 + pagesOf x.1)
  let index : Finset ((_ : ℕ) × ℕ) :=
    ((Finset.range 16).filter (6 ≤ ·)).sigma fun l => (fl l).toFinset
  have hindex : ∀ x : (_ : ℕ) × ℕ, x ∈ index ↔ 6 ≤ x.1 ∧ x.2 ∈ fl x.1 := by
    intro x
    simp only [index, Finset.mem_sigma, Finset.mem_filter, Finset.mem_range, List.mem_toFinset]
    refine ⟨fun hx => ⟨hx.1.2, hx.2⟩, fun hx => ⟨⟨?_, hx.1⟩, hx.2⟩⟩
    by_contra hlt
    have := hx.2
    rw [hempty x.1 (by omega)] at this
    simp at this
  have hpages : ∀ x ∈ index, (pages x : Set ℕ) = pagesIn (block x.2 x.1).cells := by
    intro x hx
    have h6 := ((hindex x).mp hx).1
    have hal : (block x.2 x.1).Aligned := ht.aligned _ (mem_freeBlocks.mpr ((hindex x).mp hx).2)
    rw [pagesIn, marks_cells hal (show 12 ≤ x.1 + 6 by omega), Finset.coe_Ico, pagesOf, if_pos h6]
    rfl
  have hunion : pagesIn (wholeCells (freeBlocks fl)) = ((index.biUnion pages : Finset ℕ) : Set ℕ) := by
    ext n
    rw [Finset.coe_biUnion, mem_marks, mem_wholeCells]
    simp only [Set.mem_iUnion, exists_prop, Finset.mem_coe]
    constructor
    · rintro ⟨b, ⟨l, p, hp, rfl⟩, hle, hn⟩
      have hx : (⟨l, p⟩ : (_ : ℕ) × ℕ) ∈ index := (hindex _).mpr ⟨by simpa [block] using hle, hp⟩
      exact ⟨⟨l, p⟩, hx, by rw [← Finset.mem_coe, hpages _ hx]; exact hn⟩
    · rintro ⟨x, hx, hn⟩
      rw [← Finset.mem_coe, hpages x hx] at hn
      obtain ⟨h6, hp⟩ := (hindex x).mp hx
      exact ⟨block x.2 x.1, ⟨x.1, x.2, hp, rfl⟩, show 12 ≤ x.1 + 6 by omega, hn⟩
  have hdisj : Set.PairwiseDisjoint (index : Set ((_ : ℕ) × ℕ)) pages := by
    intro x hx y hy hne
    rw [Function.onFun, ← Finset.disjoint_coe, hpages x hx, hpages y hy]
    refine disjoint_marks (ht.disjoint (mem_freeBlocks.mpr ((hindex x).mp hx).2)
      (mem_freeBlocks.mpr ((hindex y).mp hy).2) ?_)
    intro he
    obtain ⟨h2, h1⟩ := block_inj.mp he
    exact hne (Sigma.ext h1 (heq_of_eq h2))
  rw [hunion, Set.ncard_coe_finset, Finset.card_biUnion hdisj, freePages, Finset.sum_sigma,
    Finset.sum_filter]
  refine Finset.sum_congr rfl fun l _ => ?_
  simp only [pages, Nat.card_Ico, Nat.add_sub_cancel_left, Finset.sum_const, smul_eq_mul,
    List.toFinset_card_of_nodup (hn l), pagesOf]
  split <;> simp [mul_comm]

namespace Phys

variable {d : DirectMap} {s s' : Phys} {fl' : FreeLists} {live floats : Set Block} {M : Set ℕ}
  {early : ℕ}

theorem Inv.finite (h : Inv d s fl live floats M) : M.Finite :=
  (Set.finite_Ico _ _).subset h.range

theorem Inv.freeCells_subset (h : Inv d s fl live floats M) : freeCells fl ⊆ M := by
  intro a ha
  obtain ⟨l, p, hp, hap⟩ := mem_freeCells.mp ha
  exact h.tiling.subset (Inv.mem_all_of_free hp) hap

theorem Inv.tiling_free (h : Inv d s fl live ∅ M) : Tiling (freeBlocks fl) (freeCells fl) where
  aligned := fun b hb => h.tiling.aligned b (Or.inl (Or.inl hb))
  disjoint := h.tiling.disjoint.subset fun _ hb => Or.inl (Or.inl hb)
  cover := rfl

theorem Inv.ncard_free (h : Inv d s fl live ∅ M) :
    (pagesIn (wholeCells (freeBlocks fl))).ncard = freePages fl :=
  ncard_pagesIn_freeBlocks h.tiling_free h.nodup h.empty

/-- Every page that was added is free, live or split. -/
theorem Inv.ncard_pagesIn (h : Inv d s fl live ∅ M) :
    (pagesIn M).ncard = freePages fl + (pagesIn (wholeCells live)).ncard +
      (pagesIn (pieceCells (freeBlocks fl ∪ live))).ncard := by
  have ht := h.tiling
  rw [Set.union_empty] at ht
  have hfin : ∀ {A : Set ℕ}, A ⊆ M → (pagesIn A).Finite := fun hA =>
    marks_finite (h.finite.subset hA)
  have hwhole : ∀ {S : Set Block}, S ⊆ freeBlocks fl ∪ live → wholeCells S ⊆ M := by
    intro S hS a ha
    obtain ⟨b, hb, -, hab⟩ := mem_wholeCells.mp ha
    exact ht.subset (hS hb) hab
  have hpiece : pieceCells (freeBlocks fl ∪ live) ⊆ M := by
    intro a ha
    obtain ⟨b, hb, -, hab⟩ := mem_pieceCells.mp ha
    exact ht.subset hb hab
  have hM : M = wholeCells (freeBlocks fl) ∪ wholeCells live ∪
      pieceCells (freeBlocks fl ∪ live) := by
    refine Set.Subset.antisymm ?_ (Set.union_subset (Set.union_subset
      (hwhole Set.subset_union_left) (hwhole Set.subset_union_right)) hpiece)
    intro a ha
    obtain ⟨b, hb, hab⟩ := ht.mem_cover.mp ha
    rcases Nat.lt_or_ge b.order 12 with hlt | hge
    · exact Or.inr (mem_pieceCells.mpr ⟨b, hb, hlt, hab⟩)
    · rcases hb with hb | hb
      · exact Or.inl (Or.inl (mem_wholeCells.mpr ⟨b, hb, hge, hab⟩))
      · exact Or.inl (Or.inr (mem_wholeCells.mpr ⟨b, hb, hge, hab⟩))
  have hd1 : Disjoint (wholeCells (freeBlocks fl)) (wholeCells live) := by
    rw [Set.disjoint_left]
    intro a ha ha'
    obtain ⟨b, hb, -, hab⟩ := mem_wholeCells.mp ha
    obtain ⟨c, hc, -, hac⟩ := mem_wholeCells.mp ha'
    have : b = c := ht.eq_of_mem (Or.inl hb) (Or.inr hc) hab hac
    exact Set.disjoint_left.mp h.free_live hb (this ▸ hc)
  have hd2 : Disjoint (wholeCells (freeBlocks fl) ∪ wholeCells live)
      (pieceCells (freeBlocks fl ∪ live)) := by
    rw [Set.disjoint_left]
    intro a ha ha'
    obtain ⟨c, hc, hlt, hac⟩ := mem_pieceCells.mp ha'
    obtain ⟨b, hb, hge, hab⟩ : ∃ b ∈ freeBlocks fl ∪ live, 12 ≤ b.order ∧ a ∈ b.cells := by
      rcases ha with ha | ha
      · obtain ⟨b, hb, h1⟩ := mem_wholeCells.mp ha
        exact ⟨b, Or.inl hb, h1⟩
      · obtain ⟨b, hb, h1⟩ := mem_wholeCells.mp ha
        exact ⟨b, Or.inr hb, h1⟩
    obtain rfl : b = c := ht.eq_of_mem hb hc hab hac
    omega
  calc (pagesIn M).ncard
      = (pagesIn (wholeCells (freeBlocks fl)) ∪ pagesIn (wholeCells live) ∪
          pagesIn (pieceCells (freeBlocks fl ∪ live))).ncard := by
        rw [← marks_union, ← marks_union, ← hM]
    _ = (pagesIn (wholeCells (freeBlocks fl)) ∪ pagesIn (wholeCells live)).ncard +
          (pagesIn (pieceCells (freeBlocks fl ∪ live))).ncard := by
        refine Set.ncard_union_eq (disjoint_marks hd2) ?_ (hfin hpiece)
        rw [← marks_union]
        exact hfin (Set.union_subset (hwhole Set.subset_union_left)
          (hwhole Set.subset_union_right))
    _ = freePages fl + (pagesIn (wholeCells live)).ncard +
          (pagesIn (pieceCells (freeBlocks fl ∪ live))).ncard := by
        rw [Set.ncard_union_eq (disjoint_marks hd1) (hfin (hwhole Set.subset_union_left))
          (hfin (hwhole Set.subset_union_right)), h.ncard_free]

theorem Inv.freePages_le (h : Inv d s fl live ∅ M) : freePages fl ≤ (pagesIn M).ncard := by
  rw [h.ncard_pagesIn]
  omega

/-- The allocator between two calls: `live` are the blocks that the clients hold,
`M` is the memory that was added, and `early` pages were accounted as committed
from outside of it. -/
structure Ok (d : DirectMap) (s : Phys) (fl : FreeLists) (live : Set Block) (M : Set ℕ)
    (early : ℕ) : Prop where
  inv : Inv d s fl live ∅ M
  pages : freePages fl = s.acct.available + s.acct.reserved
  total : s.acct.total = early + (pagesIn M).ncard
  balanced : s.acct.Balanced

/-- The committed pages are the early ones, those in live blocks of the page level
or above, and one for each page that is split. -/
theorem Ok.committed (h : Ok d s fl live M early) :
    s.acct.committed = early + (pagesIn (wholeCells live)).ncard +
      (pagesIn (pieceCells (freeBlocks fl ∪ live))).ncard := by
  have h1 := h.inv.ncard_pagesIn
  have h2 := h.pages
  have h3 := h.total
  have h4 := h.balanced
  unfold Accounting.Balanced at h4
  omega

end Phys

end Tomato
