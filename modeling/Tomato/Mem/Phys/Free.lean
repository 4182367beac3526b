import Tomato.Mem.Phys.Alloc

/-!
# Freeing

`mergeBlock_spec` says what the merge loop does with the block it holds: as long
as the buddy is a free block of the same level, it is unlinked and the two become
one block of the next level. The bit of the buddy is what makes its header worth
reading: a set bit on an address of the allocator means that a free block starts
there.

The pages that come back to the free lists are those the code uncommits: all the
pages of a block of pages, and one page for the piece that completes a page.
-/

namespace Tomato

open Blocks

namespace Phys

variable {d : DirectMap} {s : Phys} {fl : FreeLists} {live floats : Set Block} {M : Set ℕ}
  {p level l : ℕ}

namespace Inv

theorem buddy_block (p l : ℕ) : (block p l).buddy = block (p ^^^ blockSize l) l := by
  rw [blockSize_eq]
  rfl

theorem parent_block (p l : ℕ) :
    (block p l).parent = block (min p (p ^^^ blockSize l)) (l + 1) := by
  rw [blockSize_eq]
  simp only [Block.parent, Block.buddy, block]

/-- The buddy of a block below the top level is not below the direct map. -/
theorem base_le_buddy (h : Inv d s fl live floats M) (hb : block p l ∈ floats) (hl : l < 15) :
    64 ∣ p ^^^ blockSize l ∧ d.base ≤ p ^^^ blockSize l := by
  have hball : block p l ∈ freeBlocks fl ∪ live ∪ floats := Or.inr hb
  have hal := h.tiling.aligned _ hball
  have hbal := Block.buddy_aligned hal
  rw [buddy_block] at hbal
  refine ⟨?_, ?_⟩
  · have : (2 : ℕ) ^ 6 ∣ 2 ^ (l + 6) := pow_dvd_pow 2 (by omega)
    exact this.trans hbal
  · have hle : d.base ≤ p := h.base_le_addr hball
    have hpos : 0 < 2 ^ (l + 6) := Nat.two_pow_pos _
    rcases Block.buddy_cases hal with ⟨-, h2⟩ | ⟨h1, h2⟩
    · rw [buddy_block] at h2
      simp only [block] at h2
      omega
    · -- the base is a multiple of the larger block that holds the two
      rw [buddy_block] at h1 h2
      simp only [block] at h1 h2
      have hbase : 2 ^ (l + 6 + 1) ∣ d.base :=
        (pow_dvd_pow 2 (show l + 6 + 1 ≤ 21 by omega)).trans d.base_aligned
      have hsucc : 2 ^ (l + 6 + 1) = 2 ^ (l + 6) * 2 := pow_succ _ _
      by_contra hlt
      obtain ⟨x, hx⟩ := hbase
      obtain ⟨y, hy⟩ := h2
      have hyx : y < x := by
        by_contra hge
        have := Nat.mul_le_mul_left (2 ^ (l + 6 + 1)) (Nat.le_of_not_lt hge)
        omega
      have := Nat.mul_le_mul_left (2 ^ (l + 6 + 1)) (show y + 1 ≤ x from hyx)
      rw [mul_add, mul_one] at this
      omega

/-- A set bit on the buddy means that a free block starts there. -/
theorem buddy_free (h : Inv d s fl live {block p l} M) (hl : l < 15)
    (hbit : buddyIsBlockFree d s (p ^^^ blockSize l) = true) :
    ∃ k, p ^^^ blockSize l ∈ fl k := by
  have hb : block p l ∈ freeBlocks fl ∪ live ∪ {block p l} := Or.inr rfl
  obtain ⟨hdvd, hle⟩ := h.base_le_buddy rfl hl
  have hM : (block p l).buddy.addr ∈ M := by
    rw [buddy_block]
    by_contra hM
    have := h.bit_out _ hdvd hle hM
    rw [hbit] at this
    exact absurd this (by simp)
  obtain ⟨c, hc, hca⟩ := h.tiling.exists_addr_buddy hb hM
  rw [buddy_block] at hca
  simp only [block] at hca
  rcases hc with (⟨k, q, hq, rfl⟩ | hc) | rfl
  · exact ⟨k, by rw [← hca]; exact hq⟩
  · have := h.bit_live c hc
    rw [hca, hbit] at this
    exact absurd this (by simp)
  · exfalso
    have hpos : 0 < 2 ^ (l + 6) := Nat.two_pow_pos _
    have := Block.buddy_cases (h.tiling.aligned _ hb)
    rw [buddy_block] at this
    simp only [block] at this hca
    omega

/-- A block and its buddy, both in the hands of the operation, become one. -/
theorem mergeFloats (h : Inv d s fl live {block p l, block (p ^^^ blockSize l) l} M)
    (hl : l < 15) :
    Inv d s fl live {block (min p (p ^^^ blockSize l)) (l + 1)} M := by
  have h1 : block p l ∈ freeBlocks fl ∪ live ∪ {block p l, block (p ^^^ blockSize l) l} :=
    Or.inr (Or.inl rfl)
  have hnot : ∀ c ∈ ({block p l, block (p ^^^ blockSize l) l} : Set Block),
      c ∉ freeBlocks fl ∪ live := by
    rintro c hc (hf | hl)
    · exact Set.disjoint_left.mp h.free_floats hf hc
    · exact Set.disjoint_left.mp h.live_floats hl hc
  refine h.replaceFloats ?_ ?_ ?_
  · have ht := h.tiling
    rw [← buddy_block] at ht
    rw [← parent_block]
    refine ht.merge (hnot _ (Or.inl rfl)) ?_
    rw [buddy_block]
    exact hnot _ (Or.inr rfl)
  · rintro b rfl hb
    have hmem : p ∈ (block (min p (p ^^^ blockSize l)) (l + 1)).cells := by
      rw [← parent_block, Block.cells_parent (h.tiling.aligned _ h1)]
      exact Or.inl (Block.addr_mem_cells _)
    have := h.tiling.eq_of_mem (Or.inl hb) h1 hmem (Block.addr_mem_cells _)
    simp [block_inj] at this
  · rintro b rfl
    exact ⟨l + 1, by omega, rfl⟩

end Inv

/-- What the merge loop leaves behind: the block of level `L` at `q` in its hands. -/
structure Merged (d : DirectMap) (s s' : Phys) (fl fl' : FreeLists) (live : Set Block)
    (M : Set ℕ) (p level q L : ℕ) : Prop where
  level_le : level ≤ L
  level_lt : L < 16
  inv : Inv d s' fl' live {block q L} M
  zero : ∀ a ∈ (block q L).cells, s'.mem a = 0
  cells : (block q L).cells ⊆ freeCells fl ∪ (block p level).cells
  freeCells : freeCells fl' ⊆ freeCells fl
  frame : Frame d (Phys.freeCells fl) s.mem s'.mem
  acct : s'.acct = s.acct
  freePages : Tomato.freePages fl' + pagesOf L =
    Tomato.freePages fl + pagesOf level + (if level < 6 ∧ 6 ≤ L then 1 else 0)

theorem Merged.refl (hl : level < 16) (h : Inv d s fl live {block p level} M)
    (hz : ∀ a ∈ (block p level).cells, s.mem a = 0) :
    Merged d s s fl fl live M p level p level where
  level_le := le_rfl
  level_lt := hl
  inv := h
  zero := hz
  cells := Set.subset_union_right
  freeCells := subset_rfl
  frame := Frame.refl _ _
  acct := rfl
  freePages := by rw [if_neg (by omega), Nat.add_zero]

/-- Unlinking the buddy and going on with the block of the two. -/
theorem Merged.step (h : Inv d s fl live {block p level} M) (hl : level < 15)
    (hz : ∀ a ∈ (block p level).cells, s.mem a = 0) (hk : p ^^^ blockSize level ∈ fl level) :
    let s1 := { s with
      mem := clearPageHeader (hlistDel s.mem (p ^^^ blockSize level)) (p ^^^ blockSize level) }
    let fl1 := Function.update fl level ((fl level).erase (p ^^^ blockSize level))
    let p1 := min p (p ^^^ blockSize level)
    Inv d s1 fl1 live {block p1 (level + 1)} M ∧
      (∀ a ∈ (block p1 (level + 1)).cells, s1.mem a = 0) ∧
      ∀ {s' : Phys} {fl' : FreeLists} {q L : ℕ},
        Merged d s1 s' fl1 fl' live M p1 (level + 1) q L →
          Merged d s s' fl fl' live M p level q L := by
  intro s1 fl1 p1
  have hp : block p level ∈ freeBlocks fl ∪ live ∪ {block p level} := Or.inr rfl
  have hfr : Frame d (Phys.freeCells fl) s.mem s1.mem := h.unlink_frame hk
  have h1 : Inv d s1 fl1 live ({block p level} ∪ {block (p ^^^ blockSize level) level}) M :=
    h.unlink hk
  rw [Set.singleton_union] at h1
  have hcells : (block p1 (level + 1)).cells =
      (block p level).cells ∪ (block (p ^^^ blockSize level) level).cells := by
    rw [← Inv.parent_block, Block.cells_parent (h.tiling.aligned _ hp), Inv.buddy_block]
  have hsub : (block (p ^^^ blockSize level) level).cells ⊆ Phys.freeCells fl := fun a ha =>
    mem_freeCells.mpr ⟨level, _, hk, ha⟩
  have hfc : Phys.freeCells fl1 ⊆ Phys.freeCells fl := by
    intro a ha
    obtain ⟨l, q, hq, haq⟩ := mem_freeCells.mp ha
    have : block q l ∈ freeBlocks fl \ {block (p ^^^ blockSize level) level} := by
      rw [← freeBlocks_erase (h.nodup level)]
      exact mem_freeBlocks.mpr hq
    exact mem_freeCells.mpr ⟨l, q, mem_freeBlocks.mp this.1, haq⟩
  refine ⟨h1.mergeFloats hl, ?_, ?_⟩
  · rw [hcells]
    rintro a (ha | ha)
    · rw [hfr a ?_ fun l hl => (h.head_ne hl hp ha).symm]
      · exact hz a ha
      · intro hf
        obtain ⟨l, q, hq, haq⟩ := mem_freeCells.mp hf
        exact h.free_ne hq (Or.inr rfl) (h.tiling.eq_of_mem (Inv.mem_all_of_free hq) hp haq ha)
    · exact h.unlink_zero hk a ha
  · intro s' fl' q L hm
    have hle := hm.level_le
    refine ⟨by omega, hm.level_lt, hm.inv, hm.zero, ?_, hm.freeCells.trans hfc,
      hfr.trans (hm.frame.mono hfc), hm.acct, ?_⟩
    · refine hm.cells.trans (Set.union_subset (hfc.trans Set.subset_union_left) ?_)
      rw [hcells]
      exact Set.union_subset Set.subset_union_right (hsub.trans Set.subset_union_left)
    · have he : Tomato.freePages fl1 + pagesOf level = Tomato.freePages fl :=
        freePages_erase fl (h.level_lt hk) hk
      have hm9 := hm.freePages
      rw [pagesOf_succ] at hm9
      split at hm9 <;> split at hm9 <;> split <;> omega

/-- The merge loop. -/
theorem mergeBlock_spec (n : ℕ) (hn : level + n = 15) (h : Inv d s fl live {block p level} M)
    (hz : ∀ a ∈ (block p level).cells, s.mem a = 0) :
    ∃ q L s' fl', mergeBlock d n p level s = (q, L, s') ∧
      Merged d s s' fl fl' live M p level q L := by
  induction n generalizing s fl p level with
  | zero => exact ⟨p, level, s, fl, rfl, Merged.refl (by omega) h hz⟩
  | succ n ih =>
      rw [mergeBlock]
      split
      · exact ⟨p, level, s, fl, rfl, Merged.refl (by omega) h hz⟩
      rename_i hbit
      split
      · exact ⟨p, level, s, fl, rfl, Merged.refl (by omega) h hz⟩
      rename_i hlev
      simp only [Bool.not_eq_true', Bool.not_eq_false] at hbit
      simp only [ne_eq, Decidable.not_not] at hlev
      obtain ⟨k, hk⟩ := h.buddy_free (by omega) hbit
      obtain rfl : k = level := by
        have := h.level_lt hk
        rw [pageLevel, h.header k _ hk] at hlev
        omega
      obtain ⟨h1, hz1, hstep⟩ := Merged.step h (by omega) hz hk
      obtain ⟨q, L, s', fl', e, hm⟩ := ih (by omega) h1 hz1
      have hmin : (if p > p ^^^ blockSize k then p ^^^ blockSize k else p) =
          min p (p ^^^ blockSize k) := by
        split <;> omega
      rw [hmin]
      exact ⟨q, L, s', fl', e, hstep hm⟩

/-- What freeing the block at `p` leaves behind, where `pages` is the number of
pages that came back to the free blocks. -/
structure Freed (d : DirectMap) (s s' : Phys) (fl fl' : FreeLists) (live : Set Block)
    (M : Set ℕ) (p level L : ℕ) : Prop where
  inv : Inv d s' fl' live ∅ M
  level_le : level ≤ L
  frame : Frame d (freeCells fl ∪ (block p level).cells) s.mem s'.mem
  acct : s'.acct = s.acct
  freePages : Tomato.freePages fl' = Tomato.freePages fl + commitCount level L
  freeCells : Tomato.Phys.freeCells fl' ⊆ Tomato.Phys.freeCells fl ∪ (block p level).cells

/-- The block that the merge loop leaves goes to its free list. -/
theorem linkMerged_spec (hl : level < 16) (h : Inv d s fl live {block p level} M)
    (hz : ∀ a ∈ (block p level).cells, s.mem a = 0) {q L : ℕ} {s1 : Phys}
    (hm : mergeBlock d (PHYS_BUDDY_MAX_LEVEL - 1 - level) p level s = (q, L, s1)) :
    ∃ fl', Freed d s (buddySetBlockFree d { s1 with mem := Inv.linkedMem d s1 q L } q) fl fl'
      live M p level L := by
  obtain ⟨q', L', s', fl', e, i⟩ :=
    mergeBlock_spec (PHYS_BUDDY_MAX_LEVEL - 1 - level)
      (show level + (16 - 1 - level) = 15 by omega) h hz
  rw [hm] at e
  obtain ⟨rfl, rfl, rfl⟩ : q = q' ∧ L = L' ∧ s1 = s' := by simpa using e
  have h2 := i.inv.link rfl i.level_lt i.zero
  have hfr := i.inv.link_frame (p := q) rfl i.level_lt
  rw [Set.sdiff_self] at h2
  refine ⟨_, h2, i.level_le, ?_, i.acct, ?_, ?_⟩
  · refine (i.frame.mono Set.subset_union_left).trans (hfr.mono ?_)
    exact Set.union_subset (i.freeCells.trans Set.subset_union_left) i.cells
  · have hle := i.level_le
    rw [freePages_cons _ _ i.level_lt, i.freePages]
    unfold commitCount pagesOf
    split <;> split <;> first | omega | (split <;> omega)
  · intro a ha
    obtain ⟨l, x, hx, hax⟩ := mem_freeCells.mp ha
    have : block x l ∈ freeBlocks fl' ∪ {block q L} := by
      rw [← freeBlocks_cons]
      exact mem_freeBlocks.mpr hx
    rcases this with hf | he
    · exact Or.inl (i.freeCells (mem_freeCells.mpr ⟨l, x, mem_freeBlocks.mp hf, hax⟩))
    · rw [he] at hax
      exact i.cells hax

/-- Freeing a live block. Its bit is set before the merge, which no one relies on. -/
theorem physFreeInternal_spec (hl : level < 16) (h : Inv d s fl live ∅ M)
    (hb : block p level ∈ live) (hz : ∀ a ∈ (block p level).cells, s.mem a = 0) :
    ∃ L s' fl', physFreeInternal d s p level true = some (L, s') ∧
      Freed d s s' fl fl' (live \ {block p level}) M p level L := by
  have hal : p % blockSize level = 0 := by
    have := h.tiling.aligned (block p level) (Or.inl (Or.inr hb))
    rw [blockSize_eq]
    exact Nat.mod_eq_zero_of_dvd this
  have hbit : buddyIsBlockFree d s p = false := h.bit_live (block p level) hb
  have h1 := h.takeLive hb
  rw [Set.empty_union] at h1
  have h2 : Inv d (buddySetBlockFree d s p) fl (live \ {block p level}) {block p level} M :=
    h1.setFree (b := block p level) rfl
  simp only [physFreeInternal, hal, hbit, ne_eq, not_true_eq_false, if_false, Bool.false_eq_true,
    and_false, if_true]
  generalize hm : mergeBlock d (PHYS_BUDDY_MAX_LEVEL - 1 - level) p level
    (buddySetBlockFree d s p) = r
  obtain ⟨q, L, s1⟩ := r
  obtain ⟨fl', hf⟩ := linkMerged_spec hl h2 hz hm
  exact ⟨L, _, fl', rfl, hf.inv, hf.level_le, hf.frame, hf.acct, hf.freePages, hf.freeCells⟩

/-- A block of memory that was not in the allocator before. -/
theorem physFreeInternal_new_spec (hl : level < 16) (h : Inv d s fl live {block p level} M)
    (hz : ∀ a ∈ (block p level).cells, s.mem a = 0) :
    ∃ L s' fl', physFreeInternal d s p level false = some (L, s') ∧
      Freed d s s' fl fl' live M p level L := by
  have hal : p % blockSize level = 0 := by
    have := h.tiling.aligned (block p level) (Or.inr rfl)
    rw [blockSize_eq]
    exact Nat.mod_eq_zero_of_dvd this
  simp only [physFreeInternal, hal, ne_eq, not_true_eq_false, if_false, Bool.false_eq_true,
    false_and]
  generalize hm : mergeBlock d (PHYS_BUDDY_MAX_LEVEL - 1 - level) p level s = r
  obtain ⟨q, L, s1⟩ := r
  obtain ⟨fl', hf⟩ := linkMerged_spec hl h hz hm
  exact ⟨L, _, fl', rfl, hf⟩

end Phys

end Tomato
