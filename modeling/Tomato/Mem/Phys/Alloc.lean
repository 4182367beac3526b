import Mathlib.Algebra.BigOperators.Group.Finset.Basic
import Tomato.Mem.Phys.Steps

/-!
# Allocation

`takeBlock_spec` says what the part of `phys_alloc_internal` under the commit
does: it never fails, it moves one block of the requested level to the live
blocks, all of that block is zero, and the number of free pages drops by the
number of pages the code commits. `physAllocInternal_spec` adds the search and
the commit.
-/

namespace Tomato

open Blocks

/-- The pages in a free block of the level that the accounting counts: a piece of
a page counts as none. -/
def pagesOf (l : ℕ) : ℕ := if 6 ≤ l then 2 ^ (l - 6) else 0

/-- The pages in free blocks of the page level or above. -/
def freePages (fl : FreeLists) : ℕ := ∑ l ∈ Finset.range 16, pagesOf l * (fl l).length

/-- The pages that an allocation at `level` out of a block of level `L` commits. -/
def commitCount (level L : ℕ) : ℕ :=
  if 6 ≤ level then 2 ^ (level - 6) else if 6 ≤ L then 1 else 0

theorem pagesOf_succ (l : ℕ) : pagesOf (l + 1) = 2 * pagesOf l + (if l = 5 then 1 else 0) := by
  unfold pagesOf
  rcases lt_trichotomy l 5 with h | h | h
  · have h1 : ¬ 6 ≤ l + 1 := by omega
    have h2 : ¬ 6 ≤ l := by omega
    have h3 : l ≠ 5 := by omega
    simp [h1, h2, h3]
  · subst h
    rfl
  · obtain ⟨j, rfl⟩ : ∃ j, l = j + 6 := ⟨l - 6, by omega⟩
    have h1 : 6 ≤ j + 6 + 1 := by omega
    have h2 : j + 6 + 1 - 6 = j + 1 := by omega
    simp [h1, h2, pow_succ, mul_comm]

theorem freePages_update (fl : FreeLists) {l : ℕ} (xs : List ℕ) (hl : l < 16) :
    freePages (Function.update fl l xs) + pagesOf l * (fl l).length =
      freePages fl + pagesOf l * xs.length := by
  have hmem : l ∈ Finset.range 16 := Finset.mem_range.mpr hl
  have hrest : ∑ k ∈ (Finset.range 16).erase l, pagesOf k * (Function.update fl l xs k).length =
      ∑ k ∈ (Finset.range 16).erase l, pagesOf k * (fl k).length := by
    apply Finset.sum_congr rfl
    intro k hk
    rw [Function.update_of_ne (Finset.ne_of_mem_erase hk)]
  have h1 := Finset.add_sum_erase (Finset.range 16)
    (fun k => pagesOf k * (Function.update fl l xs k).length) hmem
  have h2 := Finset.add_sum_erase (Finset.range 16) (fun k => pagesOf k * (fl k).length) hmem
  simp only [Function.update_self, hrest] at h1
  unfold freePages
  omega

theorem freePages_cons (fl : FreeLists) (p : ℕ) {l : ℕ} (hl : l < 16) :
    freePages (Function.update fl l (p :: fl l)) = freePages fl + pagesOf l := by
  have := freePages_update fl (p :: fl l) hl
  rw [List.length_cons, mul_add, mul_one] at this
  omega

theorem freePages_erase (fl : FreeLists) {p l : ℕ} (hl : l < 16) (hp : p ∈ fl l) :
    freePages (Function.update fl l ((fl l).erase p)) + pagesOf l = freePages fl := by
  have h := freePages_update fl ((fl l).erase p) hl
  have hlen := List.length_erase_add_one hp
  rw [← hlen, mul_add, mul_one] at h
  omega

namespace Phys

variable {d : DirectMap} {s : Phys} {fl : FreeLists} {live floats : Set Block} {M : Set ℕ}
  {p level L : ℕ}

namespace Inv

/-- A block in the hands of the operation may be halved. -/
theorem splitFloat {l : ℕ} (h : Inv d s fl live {block p (l + 1)} M) (hl : l + 1 < 16) :
    Inv d s fl live {block p l, block (p + 2 ^ (l + 6)) l} M := by
  have horig : block p (l + 1) ∈ freeBlocks fl ∪ live ∪ {block p (l + 1)} := Or.inr rfl
  have hnot : block p (l + 1) ∉ freeBlocks fl ∪ live := by
    rintro (hf | hl)
    · exact Set.disjoint_left.mp h.free_floats hf rfl
    · exact Set.disjoint_left.mp h.live_floats hl rfl
  refine h.replaceFloats ?_ ?_ ?_
  · have ht := h.tiling
    have he : block p (l + 1) = ⟨p, l + 6 + 1⟩ := by simp only [block]
    rw [he] at ht hnot
    exact ht.split hnot
  · rintro b (rfl | rfl) hb
    · have := h.tiling.eq_of_addr (Or.inl hb) horig rfl
      simp [block_inj] at this
    · have hmem : p + 2 ^ (l + 6) ∈ (block p (l + 1)).cells := by
        have hpos : 0 < 2 ^ (l + 6) := Nat.two_pow_pos _
        simp only [Block.mem_cells, block, pow_succ] at hpos ⊢
        omega
      have := h.tiling.eq_of_mem (Or.inl hb) horig (Block.addr_mem_cells _) hmem
      simp [block_inj] at this
  · rintro b (rfl | rfl)
    · exact ⟨l, by omega, rfl⟩
    · exact ⟨l, by omega, rfl⟩

end Inv

/-- One halving: the upper half goes to its freelist, the lower one stays in the hands
of the operation. -/
theorem splitStep {l : ℕ} (h : Inv d s fl live {block p (l + 1)} M) (hl : l + 1 < 16)
    (hz : ∀ a ∈ (block p (l + 1)).cells, s.mem a = 0) :
    let upper := p + 2 ^ (l + 6)
    let s1 := buddySetBlockFree d { s with mem := Inv.linkedMem d s upper l } upper
    Inv d s1 (Function.update fl l (upper :: fl l)) live {block p l} M ∧
      (∀ a ∈ (block p l).cells, s1.mem a = 0) ∧
      Frame d (freeCells fl ∪ (block p (l + 1)).cells) s.mem s1.mem ∧
      (block p l).cells ⊆ (block p (l + 1)).cells ∧
      (block upper l).cells ⊆ (block p (l + 1)).cells := by
  intro upper s1
  have hpos : 0 < 2 ^ (l + 6) := Nat.two_pow_pos _
  have hpow : 2 ^ (l + 1 + 6) = 2 ^ (l + 6) * 2 := by rw [← pow_succ]
  have hlow : (block p l).cells ⊆ (block p (l + 1)).cells := by
    intro a ha
    simp only [Block.mem_cells, block, hpow] at ha ⊢
    omega
  have hup : (block upper l).cells ⊆ (block p (l + 1)).cells := by
    intro a ha
    simp only [Block.mem_cells, block, hpow, upper] at ha ⊢
    omega
  have hne : block p l ≠ block upper l := by
    simp [block_inj, upper]
  have h1 := h.splitFloat hl
  have hmem : block upper l ∈ ({block p l, block upper l} : Set Block) := Or.inr rfl
  have hfr := h1.link_frame hmem (by omega)
  have h2 := h1.link hmem (by omega) fun a ha => hz a (hup ha)
  have hset : ({block p l, block upper l} : Set Block) \ {block upper l} = {block p l} := by
    ext b
    simp only [Set.mem_sdiff, Set.mem_insert_iff, Set.mem_singleton_iff]
    constructor
    · rintro ⟨rfl | rfl, hb⟩
      · rfl
      · exact absurd rfl hb
    · rintro rfl
      exact ⟨Or.inl rfl, hne⟩
  rw [hset] at h2
  have hlowmem : block p l ∈ freeBlocks fl ∪ live ∪ {block p l, block upper l} :=
    Or.inr (Or.inl rfl)
  refine ⟨h2, ?_, hfr.mono (Set.union_subset_union_right _ hup), hlow, hup⟩
  intro a ha
  show Inv.linkedMem d s upper l a = 0
  rw [hfr a ?_ fun k hk => (h1.head_ne hk hlowmem ha).symm]
  · exact hz a (hlow ha)
  · rintro (hf | hf)
    · obtain ⟨k, q, hq, haq⟩ := mem_freeCells.mp hf
      exact h1.free_ne hq (Or.inr (Or.inl rfl))
        (h1.tiling.eq_of_mem (Inv.mem_all_of_free hq) hlowmem haq ha)
    · exact hne (h1.tiling.eq_of_mem hlowmem (Or.inr hmem) ha hf)

theorem splitBlock_succ (k : ℕ) : splitBlock d level p (k + 1) s = splitBlock d level p k
    (buddySetBlockFree d
      { s with mem := Inv.linkedMem d s (p + 2 ^ (level + k + 6)) (level + k) }
      (p + 2 ^ (level + k + 6))) := by
  have hhalf : blockSize (level + k + 1) / 2 = 2 ^ (level + k + 6) := by
    rw [blockSize_eq, show level + k + 1 + 6 = level + k + 6 + 1 by omega, pow_succ]
    omega
  rw [splitBlock, hhalf]

/-- The lists after the upper halves of the block at `p` were freed, the highest of which
is `k` levels above `level`. -/
def splitLists (level p : ℕ) : ℕ → FreeLists → FreeLists
  | 0, fl => fl
  | k + 1, fl => splitLists level p k
      (Function.update fl (level + k) ((p + 2 ^ (level + k + 6)) :: fl (level + k)))

theorem splitLists_apply (level p k : ℕ) (fl : FreeLists) (l : ℕ) :
    splitLists level p k fl l =
      if level ≤ l ∧ l < level + k then (p + 2 ^ (l + 6)) :: fl l else fl l := by
  induction k generalizing fl with
  | zero =>
      rw [splitLists, if_neg (by omega)]
  | succ k ih =>
      rw [splitLists, ih]
      by_cases he : l = level + k
      · subst he
        rw [if_neg (by omega), if_pos (by omega), Function.update_self]
      · rw [Function.update_of_ne he]
        exact if_congr (by omega) rfl rfl

/-- The split loop halves the block it holds down to `level` and frees the upper
halves. -/
theorem splitBlock_spec (k : ℕ) (hL : level + k < 16)
    (h : Inv d s fl live {block p (level + k)} M)
    (hz : ∀ a ∈ (block p (level + k)).cells, s.mem a = 0) :
    ∃ fl', Inv d (splitBlock d level p k s) fl' live {block p level} M ∧
      (∀ a ∈ (block p level).cells, (splitBlock d level p k s).mem a = 0) ∧
      Frame d (freeCells fl ∪ (block p (level + k)).cells) s.mem (splitBlock d level p k s).mem ∧
      (splitBlock d level p k s).acct = s.acct ∧
      freePages fl' + pagesOf level + (if level < 6 ∧ 6 ≤ level + k then 1 else 0) =
        freePages fl + pagesOf (level + k) ∧ fl' = splitLists level p k fl := by
  induction k generalizing s fl with
  | zero =>
      refine ⟨fl, h, hz, Frame.refl _ _, rfl, ?_, rfl⟩
      rw [Nat.add_zero, if_neg (by omega), Nat.add_zero]
  | succ k ih =>
      obtain ⟨h2, hz2, hfr, hlow, hup⟩ := splitStep (l := level + k) h hL hz
      obtain ⟨fl', i1, i2, i3, i4, i5, i6⟩ := ih (by omega) h2 hz2
      rw [splitBlock_succ]
      refine ⟨fl', i1, i2, ?_, i4, ?_, i6⟩
      · refine hfr.trans (i3.mono ?_)
        rintro a (ha | ha)
        · obtain ⟨l, q, hq, haq⟩ := mem_freeCells.mp ha
          have : block q l ∈ freeBlocks fl ∪ {block (p + 2 ^ (level + k + 6)) (level + k)} := by
            rw [← freeBlocks_cons]
            exact mem_freeBlocks.mpr hq
          rcases this with hf | he
          · exact Or.inl (mem_freeCells.mpr ⟨l, q, mem_freeBlocks.mp hf, haq⟩)
          · rw [he] at haq
            exact Or.inr (hup haq)
        · exact Or.inr (hlow ha)
      · rw [freePages_cons _ _ (by omega)] at i5
        rw [← Nat.add_assoc, pagesOf_succ]
        split at i5 <;> split <;> split <;> omega

/-- One free block of level `L` is used up for a block of `level`, and what is left of it
is free. -/
def Consumed (fl fl' : FreeLists) (p level L : ℕ) : Prop :=
  ∃ rest, fl L = p :: rest ∧ fl' = splitLists level p (L - level) (Function.update fl L rest)

/-- The part of an allocation under the commit. -/
theorem takeBlock_spec (h : Inv d s fl live ∅ M) (hlevel : level ≤ L) (hL : L < 16)
    (hne : fl L ≠ []) :
    ∃ p s' fl', takeBlock d s level L = some (p, s') ∧
      Inv d s' fl' (live ∪ {block p level}) ∅ M ∧ block p level ∉ live ∧
      (block p level).cells ⊆ freeCells fl ∧
      (∀ a ∈ (block p level).cells, s'.mem a = 0) ∧ Frame d (freeCells fl) s.mem s'.mem ∧
      s'.acct = s.acct ∧ freePages fl' + commitCount level L = freePages fl ∧
      Consumed fl fl' p level L := by
  obtain ⟨p, rest, hfl⟩ := List.exists_cons_of_ne_nil hne
  have hp : p ∈ fl L := by simp [hfl]
  have hhead : s.mem (d.head L) = p := by
    have := (h.chain L hL).head
    simpa [hfl] using this
  have hlev : pageLevel s.mem p = L := by
    rw [pageLevel, h.header L p hp]
    omega
  have h1 := h.unlink hp
  have hz1 := h.unlink_zero hp
  have hfr1 := h.unlink_frame hp
  rw [Set.empty_union] at h1
  obtain ⟨k, rfl⟩ := Nat.exists_eq_add_of_le hlevel
  obtain ⟨fl', i1, i2, i3, i4, i5, i6⟩ := splitBlock_spec k hL h1 hz1
  have h2 := i1.setAllocated rfl
  rw [Set.sdiff_self] at h2
  have hsub : (block p (level + k)).cells ⊆ freeCells fl := fun a ha =>
    mem_freeCells.mpr ⟨_, p, hp, ha⟩
  have hlow : (block p level).cells ⊆ (block p (level + k)).cells := by
    intro a ha
    have : 2 ^ (level + 6) ≤ 2 ^ (level + k + 6) := Nat.pow_le_pow_right (by omega) (by omega)
    simp only [Block.mem_cells, block] at ha ⊢
    omega
  refine ⟨p, _, fl', ?_, h2, ?_, hlow.trans hsub, i2, ?_, i4, ?_, rest, hfl, ?_⟩
  · simp only [takeBlock, hhead, hlev, ne_eq, not_true_eq_false, if_false,
      Nat.add_sub_cancel_left]
    rfl
  · exact fun hlive => Set.disjoint_left.mp i1.live_floats hlive rfl
  · refine hfr1.trans (i3.mono ?_)
    rintro a (ha | ha)
    · obtain ⟨l, q, hq, haq⟩ := mem_freeCells.mp ha
      have : block q l ∈ freeBlocks fl \ {block p (level + k)} := by
        rw [← freeBlocks_erase (h.nodup _)]
        exact mem_freeBlocks.mpr hq
      exact mem_freeCells.mpr ⟨l, q, mem_freeBlocks.mp this.1, haq⟩
    · exact hsub ha
  · have he := freePages_erase fl hL hp
    unfold commitCount
    unfold pagesOf at i5 he
    split at i5 <;> split at i5 <;> split at i5 <;> split <;> split at he <;> try split
    all_goals omega
  · rw [i6, hfl, List.erase_cons_head, Nat.add_sub_cancel_left]

theorem closestLevel_spec (h : Inv d s fl live floats M) (n : ℕ) (hn : level + n = 16) :
    let L := closestLevel d s.mem n level
    level ≤ L ∧ L ≤ 16 ∧ (L < 16 → fl L ≠ []) ∧ ∀ k, level ≤ k → k < L → fl k = [] := by
  induction n generalizing level with
  | zero => exact ⟨le_rfl, by simp only [closestLevel]; omega, by simp only [closestLevel]; omega,
      by simp only [closestLevel]; omega⟩
  | succ n ih =>
      have hiff := (h.chain level (by omega)).hlistEmpty_iff
      rw [closestLevel]
      split
      · rename_i hemp
        obtain ⟨i1, i2, i3, i4⟩ := ih (show level + 1 + n = 16 by omega)
        refine ⟨by omega, i2, i3, ?_⟩
        intro k hk hkL
        rcases Nat.eq_or_lt_of_le hk with rfl | hlt
        · exact hiff.mp hemp
        · exact i4 k hlt hkL
      · rename_i hemp
        exact ⟨le_rfl, by omega, fun _ he => hemp (hiff.mpr he), by omega⟩

/-- No list of the page level or above has a block, so no page is free. -/
theorem freePages_eq_zero {fl : FreeLists} (h : ∀ l, 6 ≤ l → l < 16 → fl l = []) :
    freePages fl = 0 := by
  refine Finset.sum_eq_zero fun l hl => ?_
  rcases Nat.lt_or_ge l 6 with hlt | hge
  · simp [pagesOf, Nat.not_le.mpr hlt]
  · rw [h l hge (Finset.mem_range.mp hl)]
    simp

/-- What an allocation that hands out the block at `p` leaves behind, where `pages`
is the number of pages it took out of the free blocks. -/
structure Allocated (d : DirectMap) (s s' : Phys) (fl fl' : FreeLists) (live : Set Block)
    (M : Set ℕ) (p level pages : ℕ) : Prop where
  inv : Inv d s' fl' (live ∪ {block p level}) ∅ M
  fresh : block p level ∉ live
  cells : (block p level).cells ⊆ freeCells fl
  zero : ∀ a ∈ (block p level).cells, s'.mem a = 0
  frame : Frame d (freeCells fl) s.mem s'.mem
  freePages : Tomato.freePages fl' + pages = Tomato.freePages fl
  pages : 6 ≤ level → pages = 2 ^ (level - 6)

theorem takeBlock_acct (h : Inv d s fl live ∅ M) (hlevel : level ≤ L) (hL : L < 16)
    (hne : fl L ≠ []) (a : Accounting) :
    ∃ p s' fl', takeBlock d { s with acct := a } level L = some (p, s') ∧ s'.acct = a ∧
      Allocated d s s' fl fl' live M p level (commitCount level L) ∧
      Consumed fl fl' p level L := by
  obtain ⟨p, s', fl', h1, h2, h3, h4, h5, h6, h7, h8, h9⟩ :=
    takeBlock_spec (h.congr_acct a) hlevel hL hne
  exact ⟨p, s', fl', h1, h7, ⟨h2, h3, h4, h5, h6, h8, fun hl => if_pos hl⟩, h9⟩

/-- An allocation that is not reserved never fails an assertion. It returns `NULL`
and changes nothing, or it hands out a block and commits its pages. -/
theorem physAllocInternal_spec (h : Inv d s fl live ∅ M) (hlevel : level < 16) :
    physAllocInternal d s level false = some (none, s) ∨
      ∃ p s' fl' pages, physAllocInternal d s level false = some (some p, s') ∧
        Allocated d s s' fl fl' live M p level pages ∧ pages ≤ s.acct.available ∧
        s'.acct = { s.acct with
          available := s.acct.available - pages, committed := s.acct.committed + pages } := by
  obtain ⟨i1, i2, i3, -⟩ := closestLevel_spec h (PHYS_BUDDY_MAX_LEVEL - level)
    (show level + (PHYS_BUDDY_MAX_LEVEL - level) = 16 by simp only [PHYS_BUDDY_MAX_LEVEL]; omega)
  simp only [physAllocInternal]
  generalize closestLevel d s.mem (PHYS_BUDDY_MAX_LEVEL - level) level = L at i1 i2 i3 ⊢
  by_cases hL : L = PHYS_BUDDY_MAX_LEVEL
  · simp [hL]
  have hL' : L < 16 := by simp only [PHYS_BUDDY_MAX_LEVEL] at hL; omega
  rw [if_neg hL]
  have hcommit : commitPages s.acct level L false = some (s.acct.memAcctCommit (commitCount level L))
      ∨ (commitCount level L = 0 ∧ commitPages s.acct level L false = some (true, s.acct)) := by
    simp only [commitPages, commitCount, getPageCountByLevel_eq, PHYS_BUDDY_PAGE_LEVEL_eq, ge_iff_le]
    by_cases h6 : 6 ≤ level
    · simp [h6]
    · by_cases hL6 : 6 ≤ L <;> simp [h6, hL6]
  rcases hcommit with hc | ⟨h0, hc⟩
  · rw [hc]
    cases hm : s.acct.memAcctCommit (commitCount level L) with
    | mk ok a =>
      cases ok with
      | false => exact Or.inl rfl
      | true =>
        obtain ⟨hle, rfl⟩ := Accounting.memAcctCommit_true hm
        obtain ⟨p, s', fl', t1, t2, t3, -⟩ := takeBlock_acct h i1 hL' (i3 hL') _
        exact Or.inr ⟨p, s', fl', _, by simp [t1], t3, hle, t2⟩
  · obtain ⟨p, s', fl', t1, t2, t3, -⟩ := takeBlock_acct h i1 hL' (i3 hL') s.acct
    refine Or.inr ⟨p, s', fl', _, by simp [hc, t1], t3, by omega, ?_⟩
    rw [h0, t2, Nat.sub_zero, Nat.add_zero]

/-- A reserved allocation of pages that are reserved never fails an assertion. -/
theorem physAllocInternal_reserved_spec (h : Inv d s fl live ∅ M) (hlevel : level < 16)
    (hpage : 6 ≤ level) (hres : 2 ^ (level - 6) ≤ s.acct.reserved)
    (hfree : s.acct.reserved ≤ freePages fl) :
    (level ≠ 6 ∧ physAllocInternal d s level true = some (none, s)) ∨
      ∃ p s' fl' pages, physAllocInternal d s level true = some (some p, s') ∧
        Allocated d s s' fl fl' live M p level pages ∧ pages = 2 ^ (level - 6) ∧
        s'.acct = { s.acct with
          reserved := s.acct.reserved - pages, committed := s.acct.committed + pages } := by
  obtain ⟨i1, i2, i3, i4⟩ := closestLevel_spec h (PHYS_BUDDY_MAX_LEVEL - level)
    (show level + (PHYS_BUDDY_MAX_LEVEL - level) = 16 by simp only [PHYS_BUDDY_MAX_LEVEL]; omega)
  simp only [physAllocInternal]
  generalize closestLevel d s.mem (PHYS_BUDDY_MAX_LEVEL - level) level = L at i1 i2 i3 i4 ⊢
  by_cases hL : L = PHYS_BUDDY_MAX_LEVEL
  · rcases eq_or_ne level 6 with rfl | hne
    · exfalso
      have hzero : freePages fl = 0 := freePages_eq_zero fun l hge hlt => i4 l hge (by
        simp only [PHYS_BUDDY_MAX_LEVEL] at hL
        omega)
      simp only [Nat.sub_self, pow_zero] at hres
      omega
    · left
      have : level ≠ PHYS_BUDDY_PAGE_LEVEL := hne
      exact ⟨hne, by simp [hL, this]⟩
  have hL' : L < 16 := by simp only [PHYS_BUDDY_MAX_LEVEL] at hL; omega
  rw [if_neg hL]
  have hcommit : commitPages s.acct level L true = some (true, { s.acct with
      reserved := s.acct.reserved - 2 ^ (level - 6),
      committed := s.acct.committed + 2 ^ (level - 6) }) := by
    have hc := Accounting.memAcctCommitReserved_eq_some.mpr ⟨hres, rfl⟩
    simp only [commitPages, getPageCountByLevel_eq, PHYS_BUDDY_PAGE_LEVEL_eq, ge_iff_le, hpage, if_true, hc]
    rfl
  obtain ⟨p, s', fl', t1, t2, t3, -⟩ := takeBlock_acct h i1 hL' (i3 hL') _
  have hpages : commitCount level L = 2 ^ (level - 6) := if_pos hpage
  rw [hpages] at t3
  exact Or.inr ⟨p, s', fl', _, by rw [hcommit]; simp [t1], t3, rfl, t2⟩

end Phys

end Tomato
