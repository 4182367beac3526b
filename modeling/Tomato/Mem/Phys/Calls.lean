import Tomato.Mem.Phys.AddMemory

/-!
# The calls of the physical allocator

Each function of `mem/phys.h`, called between two states that satisfy `Ok`. The
blocks that the clients hold change by the block the call is about, the counters
by its pages, and the memory only in the free blocks and in a block that is
freed.
-/

namespace Tomato

open Blocks

namespace Phys

variable {d : DirectMap} {s s' : Phys} {fl fl' : FreeLists} {live : Set Block} {M : Set ℕ}
  {early p level L size n : ℕ}

theorem Ok.congr_mem (h : Ok d s fl live M early) {m : Memory}
    (hh : ∀ l < 16, m (d.head l) = s.mem (d.head l))
    (hf : ∀ a ∈ freeCells fl, m a = s.mem a) : Ok d { s with mem := m } fl live M early :=
  ⟨h.inv.congr_mem hh fun l p hp a ha => hf a (mem_freeCells.mpr ⟨l, p, hp, ha⟩),
    h.pages, h.total, h.balanced⟩

/-- The pages that come back were committed. -/
theorem Freed.le_committed (h : Ok d s fl live M early) {live' : Set Block}
    (hf : Freed d s s' fl fl' live' M p level L) : commitCount level L ≤ s.acct.committed := by
  have h1 := hf.inv.freePages_le
  have h2 := hf.freePages
  have h3 := h.pages
  have h4 := h.total
  have h5 := h.balanced
  unfold Accounting.Balanced at h5
  omega

theorem Ok.physAlloc (h : Ok d s fl live M early) (size : ℕ) :
    Phys.physAlloc d s size = some (none, s) ∨
      ∃ level p s' fl' pages, getLevelBySize size = some level ∧
        Phys.physAlloc d s size = some (some p, s') ∧
        Allocated d s s' fl fl' live M p level pages ∧
        Ok d s' fl' (live ∪ {block p level}) M early ∧ pages ≤ s.acct.available ∧
        s'.acct = { s.acct with
          available := s.acct.available - pages, committed := s.acct.committed + pages } := by
  unfold Phys.physAlloc
  cases hl : getLevelBySize size with
  | none => exact Or.inl rfl
  | some level =>
    rcases physAllocInternal_spec h.inv (getLevelBySize_eq_some hl).1 with hn | hs
    · exact Or.inl hn
    · obtain ⟨p, s', fl', pages, e, ha, hle, hacct⟩ := hs
      refine Or.inr ⟨level, p, s', fl', pages, rfl, e, ha, ⟨ha.inv, ?_, ?_, ?_⟩, hle, hacct⟩
      · have h1 := ha.freePages
        have h2 := h.pages
        simp only [hacct]
        omega
      · simp only [hacct]
        exact h.total
      · have h2 := h.balanced
        unfold Accounting.Balanced at h2 ⊢
        simp only [hacct]
        omega

theorem Ok.physAllocReserved (h : Ok d s fl live M early)
    (hl : getPageLevelBySize size = some level) (hres : 2 ^ (level - 6) ≤ s.acct.reserved) :
    (level ≠ 6 ∧ Phys.physAllocReserved d s size = some (none, s)) ∨
      ∃ p s' fl', Phys.physAllocReserved d s size = some (some p, s') ∧
        Allocated d s s' fl fl' live M p level (2 ^ (level - 6)) ∧
        Ok d s' fl' (live ∪ {block p level}) M early ∧
        s'.acct = { s.acct with
          reserved := s.acct.reserved - 2 ^ (level - 6),
          committed := s.acct.committed + 2 ^ (level - 6) } := by
  obtain ⟨-, h6, h16, -⟩ := getPageLevelBySize_eq_some hl
  rw [Phys.physAllocReserved, hl, Option.bind_some]
  have hfree : s.acct.reserved ≤ Tomato.freePages fl := by
    have := h.pages
    omega
  rcases physAllocInternal_reserved_spec h.inv h16 h6 hres hfree with hn | hs
  · exact Or.inl hn
  · obtain ⟨p, s', fl', pages, e, ha, rfl, hacct⟩ := hs
    refine Or.inr ⟨p, s', fl', e, ha, ⟨ha.inv, ?_, ?_, ?_⟩, hacct⟩
    · have h1 := ha.freePages
      have h2 := h.pages
      simp only [hacct]
      omega
    · simp only [hacct]
      exact h.total
    · have h2 := h.balanced
      unfold Accounting.Balanced at h2 ⊢
      simp only [hacct]
      omega

/-- A reserved page is handed out for every page that is reserved. -/
theorem Ok.physAllocReserved_page (h : Ok d s fl live M early) (hres : 1 ≤ s.acct.reserved) :
    ∃ p s' fl', Phys.physAllocReserved d s PAGE_SIZE = some (some p, s') ∧
      Allocated d s s' fl fl' live M p 6 1 ∧ Ok d s' fl' (live ∪ {block p 6}) M early ∧
      s'.acct = { s.acct with
        reserved := s.acct.reserved - 1, committed := s.acct.committed + 1 } := by
  rcases h.physAllocReserved getPageLevelBySize_pageSize hres with ⟨hne, -⟩ | hs
  · exact absurd rfl hne
  · exact hs

/-- Without the reservation the counter underflows, unless there is no block. -/
theorem physAllocReserved_cases {r : Option ℕ × Phys}
    (he : Phys.physAllocReserved d s size = some r) :
    r = (none, s) ∨ ∃ level, getPageLevelBySize size = some level ∧
      2 ^ (level - 6) ≤ s.acct.reserved := by
  cases hl : getPageLevelBySize size with
  | none => simp [Phys.physAllocReserved, hl] at he
  | some level =>
    obtain ⟨-, h6, h16, -⟩ := getPageLevelBySize_eq_some hl
    rw [Phys.physAllocReserved, hl, Option.bind_some] at he
    by_cases hres : 2 ^ (level - 6) ≤ s.acct.reserved
    · exact Or.inr ⟨level, rfl, hres⟩
    · left
      simp only [physAllocInternal] at he
      split at he
      · split at he
        · simp at he
        · exact (Option.some.inj he).symm
      · have hc : s.acct.memAcctCommitReserved (2 ^ (level - 6)) = none := by
          simp [Accounting.memAcctCommitReserved, Accounting.checkedAtomicSub, hres]
        simp [commitPages, getPageCountByLevel_eq, PHYS_BUDDY_PAGE_LEVEL_eq, h6, hc] at he

/-- The counters after `pages` committed pages are given back. -/
def uncommitted (a : Accounting) (pages : ℕ) (reserved : Bool) : Accounting :=
  if reserved then
    { a with committed := a.committed - pages, reserved := a.reserved + pages }
  else { a with committed := a.committed - pages, available := a.available + pages }

/-- What the caller sees of a free. -/
structure Returned (d : DirectMap) (s s' : Phys) (fl fl' : FreeLists) (live : Set Block)
    (M : Set ℕ) (early p level pages : ℕ) (reserved : Bool) : Prop where
  ok : Ok d s' fl' (live \ {block p level}) M early
  frame : Frame d (freeCells fl ∪ (block p level).cells) s.mem s'.mem
  le : pages ≤ s.acct.committed
  acct : s'.acct = uncommitted s.acct pages reserved
  pages : 6 ≤ level → pages = 2 ^ (level - 6)

/-- The client's words do not matter to the allocator. -/
theorem Ok.write {b : Block} {content : ℕ → ℕ} (h : Ok d s fl live M early) (hb : b ∈ live) :
    Ok d { s with mem := fun a =>
      if b.addr ≤ a ∧ a < b.addr + 2 ^ b.order then content a else s.mem a } fl live M early := by
  have hball : b ∈ freeBlocks fl ∪ live ∪ ∅ := Or.inl (Or.inr hb)
  refine h.congr_mem ?_ ?_
  · intro l hl
    exact if_neg fun hc => h.inv.head_ne hl hball hc rfl
  · intro a ha
    obtain ⟨l, q, hq, haq⟩ := mem_freeCells.mp ha
    refine if_neg fun hc => h.inv.free_ne hq (Or.inl hb) ?_
    exact h.inv.tiling.eq_of_mem (Inv.mem_all_of_free hq) hball haq hc

/-- A live block is wiped before it is freed. -/
theorem Ok.zeroLive (h : Ok d s fl live M early) (hb : block p level ∈ live) :
    Ok d { s with mem := s.mem.zero p (blockSize level) } fl live M early ∧
      ∀ a ∈ (block p level).cells, s.mem.zero p (blockSize level) a = 0 := by
  rw [blockSize_eq]
  exact ⟨h.write hb, fun a ha => Memory.zero_of_mem _ ha.1 ha.2⟩

theorem Ok.physFreeBlock (h : Ok d s fl live M early) (hl : level < 16)
    (hb : block p level ∈ live) (reserved : Bool) (hpage : reserved → 6 ≤ level) :
    ∃ s' fl' pages, Phys.physFreeBlock d s p level reserved = some s' ∧
      Returned d s s' fl fl' live M early p level pages reserved := by
  have hcells : ∀ a, a ∉ (block p level).cells →
      s.mem.zero p (blockSize level) a = s.mem a := by
    intro a ha
    refine Memory.zero_of_notMem _ ?_
    rw [blockSize_eq]
    simp only [Block.mem_cells, block] at ha
    omega
  obtain ⟨h1, hz⟩ := h.zeroLive hb
  obtain ⟨L, s', fl', e, hf⟩ := physFreeInternal_spec hl h1.inv hb hz
  have hle : commitCount level L ≤ s.acct.committed := by simpa using Freed.le_committed h1 hf
  have hacct : uncommitPages s'.acct level L reserved =
      some (uncommitted s.acct (commitCount level L) reserved) := by
    rw [hf.acct]
    simp only [uncommitPages, uncommitted, getPageCountByLevel_eq, PHYS_BUDDY_PAGE_LEVEL_eq, ge_iff_le]
    by_cases h6 : 6 ≤ level
    · have hcount : commitCount level L = 2 ^ (level - 6) := if_pos h6
      rw [hcount] at hle ⊢
      cases reserved with
      | true => simpa [h6] using Accounting.memAcctUncommitToReserved_eq_some.mpr ⟨hle, rfl⟩
      | false => simpa [h6] using Accounting.memAcctUncommit_eq_some.mpr ⟨hle, rfl⟩
    · obtain rfl : reserved = false := by
        cases reserved with
        | true => exact absurd (hpage rfl) h6
        | false => rfl
      by_cases hL6 : 6 ≤ L
      · have hcount : commitCount level L = 1 := by simp [commitCount, h6, hL6]
        rw [hcount] at hle ⊢
        simpa [h6, hL6] using Accounting.memAcctUncommit_eq_some.mpr ⟨hle, rfl⟩
      · have hcount : commitCount level L = 0 := by simp [commitCount, h6, hL6]
        simp [h6, hL6, hcount]
  have hpages := hf.freePages
  have hp := h.pages
  have hbal := h.balanced
  unfold Accounting.Balanced at hbal
  refine ⟨{ s' with acct := uncommitted s.acct (commitCount level L) reserved }, fl',
    commitCount level L, ?_, ⟨hf.inv.congr_acct _, ?_, ?_, ?_⟩, ?_, hle, rfl,
    fun h6 => if_pos h6⟩
  · simp only [Phys.physFreeBlock, Option.bind_eq_bind, e, Option.bind_some, hacct]
  · cases reserved <;> simp [uncommitted] <;> omega
  · cases reserved <;> exact h.total
  · unfold Accounting.Balanced
    cases reserved <;> simp [uncommitted] <;> omega
  · intro a ha hh
    rw [← hcells a fun hc => ha (Or.inr hc)]
    exact hf.frame a ha hh

theorem Ok.live_ne_zero (h : Ok d s fl live M early) (hb : block p level ∈ live) : p ≠ 0 := by
  have := h.inv.base_le_addr (Or.inl (Or.inr hb))
  have := d.base_pos
  simp only [block] at *
  omega

theorem Ok.physFree (h : Ok d s fl live M early) (hl : getLevelBySize size = some level)
    (hb : block p level ∈ live) :
    ∃ s' fl' pages, Phys.physFree d s p size = some s' ∧
      Returned d s s' fl fl' live M early p level pages false := by
  rw [Phys.physFree, if_neg (h.live_ne_zero hb), hl, Option.bind_some]
  exact h.physFreeBlock (getLevelBySize_eq_some hl).1 hb false (by simp)

theorem Ok.physFreeReserved (h : Ok d s fl live M early)
    (hl : getPageLevelBySize size = some level) (hb : block p level ∈ live) :
    ∃ s' fl' pages, Phys.physFreeReserved d s p size = some s' ∧
      Returned d s s' fl fl' live M early p level pages true := by
  obtain ⟨-, h6, h16, -⟩ := getPageLevelBySize_eq_some hl
  rw [Phys.physFreeReserved, if_neg (h.live_ne_zero hb), hl, Option.bind_some]
  exact h.physFreeBlock h16 hb true fun _ => h6

theorem and_pageMask {x : ℕ} : x &&& PAGE_MASK = 0 ↔ 4096 ∣ x := by
  rw [Nat.dvd_iff_mod_eq_zero, ← Nat.and_two_pow_sub_one_eq_mod x 12]
  rfl

/-- The memory that is to be added is wiped first. -/
theorem Inv.zeroRange {start end_ : ℕ} (h : Inv d s fl live ∅ M)
    (hM : Disjoint (Set.Ico start end_) M) (hr : Set.Ico start end_ ⊆ d.range) :
    Inv d { s with mem := s.mem.zero start (end_ - start) } fl live ∅ M ∧
      ∀ a ∈ Set.Ico start end_, s.mem.zero start (end_ - start) a = 0 := by
  have hcells : ∀ a, a ∉ Set.Ico start end_ → s.mem.zero start (end_ - start) a = s.mem a := by
    intro a ha
    refine Memory.zero_of_notMem _ ?_
    rw [Set.mem_Ico] at ha
    omega
  refine ⟨h.congr_mem ?_ ?_, fun a ha => Memory.zero_of_mem _ ha.1 (by have := ha.2; omega)⟩
  · exact fun l hl => hcells _ fun hc => Inv.head_notMem_range hl (hr hc)
  · exact fun l p hp a ha => hcells a fun hc =>
      Set.disjoint_left.mp hM hc (h.freeCells_subset (mem_freeCells.mpr ⟨l, p, hp, ha⟩))

theorem Ok.physAddMemory {start end_ : ℕ} (h : Ok d s fl live M early) (hs : 4096 ∣ start)
    (he : 4096 ∣ end_) (hle : start ≤ end_) (hM : Disjoint (Set.Ico start end_) M)
    (hr : Set.Ico start end_ ⊆ d.range) (hend : end_ ≤ d.base + d.pageCount * 4096) :
    ∃ s' fl', Phys.physAddMemory d s start end_ = some s' ∧
      Ok d s' fl' live (M ∪ Set.Ico start end_) early ∧
      s'.acct = s.acct.memAcctAddTotal ((end_ - start) / 4096) ∧
      Frame d (freeCells fl ∪ Set.Ico start end_) s.mem s'.mem := by
  have hno : end_ + 2 ^ 21 ≤ 2 ^ 64 := by
    have := d.top
    omega
  have hcells : ∀ a, a ∉ Set.Ico start end_ → s.mem.zero start (end_ - start) a = s.mem a := by
    intro a ha
    refine Memory.zero_of_notMem _ ?_
    rw [Set.mem_Ico] at ha
    omega
  obtain ⟨h1, hz⟩ := h.inv.zeroRange hM hr
  obtain ⟨s', fl', e, i1, i2, i3, i4⟩ := addBlocks_spec hno hs he hle h1 hM hr hz
  have hcount : (pagesIn (Set.Ico start end_)).ncard = (end_ - start) / 4096 := by
    obtain ⟨x, rfl⟩ := hs
    obtain ⟨y, rfl⟩ := he
    rw [pagesIn, show 4096 = 2 ^ 12 from rfl, marks_Ico, ← Finset.coe_Ico,
      Set.ncard_coe_finset, Nat.card_Ico]
    omega
  have hpage : PAGE_SIZE = 4096 := rfl
  refine ⟨{ s' with acct := s.acct.memAcctAddTotal ((end_ - start) / 4096) }, fl', ?_,
    ⟨i1.congr_acct _, ?_, ?_, ?_⟩, rfl, ?_⟩
  · rw [Phys.physAddMemory, and_pageMask.mpr hs, and_pageMask.mpr he]
    simp only [ne_eq, not_true_eq_false, or_self, if_false, e, hpage, i2, Option.map_some]
  · have := h.pages
    simp only [Accounting.memAcctAddTotal, i3]
    omega
  · have hfin : (pagesIn (Set.Ico start end_)).Finite := marks_finite (Set.finite_Ico _ _)
    have : s.acct.total = early + (marks 12 M).ncard := h.total
    rw [pagesIn, marks_union, Set.ncard_union_eq (disjoint_marks hM.symm)
      (marks_finite h.inv.finite) hfin]
    simp only [Accounting.memAcctAddTotal, hcount]
    omega
  · have := h.balanced
    unfold Accounting.Balanced at this ⊢
    simp only [Accounting.memAcctAddTotal]
    omega
  · intro a ha hh
    rw [← hcells a fun hc => ha (Or.inr hc)]
    exact i4 a ha hh

theorem Ok.memAcctReserve (h : Ok d s fl live M early) (n : ℕ) :
    Ok d { s with acct := (s.acct.memAcctReserve n).2 } fl live M early := by
  have h2 := h.pages
  have h4 := h.balanced
  unfold Accounting.Balanced at h4
  cases hr : s.acct.memAcctReserve n with
  | mk r a =>
    cases r with
    | error e =>
      obtain ⟨-, -, rfl⟩ := Accounting.memAcctReserve_error hr
      exact ⟨h.inv, h.pages, h.total, h.balanced⟩
    | ok u =>
      obtain ⟨hle, rfl⟩ := Accounting.memAcctReserve_ok hr
      exact ⟨h.inv.congr_acct _, by simp only; omega, h.total,
        by simp only [Accounting.Balanced]; omega⟩

theorem Ok.memAcctUnreserve (h : Ok d s fl live M early) {a : Accounting}
    (ha : s.acct.memAcctUnreserve n = some a) : Ok d { s with acct := a } fl live M early := by
  obtain ⟨hle, rfl⟩ := Accounting.memAcctUnreserve_eq_some.mp ha
  have h2 := h.pages
  have h4 := h.balanced
  unfold Accounting.Balanced at h4
  exact ⟨h.inv.congr_acct _, by simp only; omega, h.total,
    by simp only [Accounting.Balanced]; omega⟩

theorem Ok.memAcctAddCommitted (h : Ok d s fl live M early) (n : ℕ) :
    Ok d { s with acct := s.acct.memAcctAddCommitted n } fl live M (early + n) := by
  have h3 := h.total
  have h4 := h.balanced
  unfold Accounting.Balanced at h4
  exact ⟨h.inv.congr_acct _, h.pages, by simp only [Accounting.memAcctAddCommitted]; omega,
    by simp only [Accounting.Balanced, Accounting.memAcctAddCommitted]; omega⟩

end Phys

end Tomato
