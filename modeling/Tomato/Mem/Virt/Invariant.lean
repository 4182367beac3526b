import Tomato.Mem.Phys.Calls
import Tomato.Mem.Virt.Tables

/-!
# The page table and the physical allocator

`VirtOk` is what holds between two steps of the functions of `mem/virt.c`. Every table is
a live block of the physical allocator, or a page that was never given to it, and the
frame behind every leaf entry that was not made during boot is a live block of its own.
`others` are the live blocks of the other clients of the allocator.
-/

namespace Tomato

open Blocks Radix

/-- The frame that a leaf entry maps. -/
def frameOf (d : DirectMap) (v : ℕ) : ℕ := d.physToDirect (v &&& PAGING_4K_ADDRESS_MASK)

namespace Phys

variable {d : DirectMap} {root : ℕ} {s s' : Phys} {fl fl' : FreeLists}
  {live live' others others' : Set Block} {M boot boot' : Set ℕ} {early n p t x v : ℕ} {b : Block}

structure VirtOk (d : DirectMap) (root : ℕ) (s : Phys) (fl : FreeLists) (live : Set Block)
    (M : Set ℕ) (early : ℕ) (others : Set Block) (boot : Set ℕ) : Prop where
  ok : s.Ok d fl live M early
  kernel : KERNEL_REGION_BASE ≤ d.base
  tables : TablesOk d s.mem root
  held : ∀ t, IsTable d s.mem root t → block t 6 ∈ live \ others ∨ Disjoint (pageCells t) M
  others_live : others ⊆ live
  frame : ∀ n < 2 ^ 36, n ∉ boot → leafEntry d s.mem root n ≠ 0 →
    block (frameOf d (leafEntry d s.mem root n)) 6 ∈ live \ others ∧
      ¬ IsTable d s.mem root (frameOf d (leafEntry d s.mem root n))
  frame_inj : ∀ n < 2 ^ 36, n ∉ boot → leafEntry d s.mem root n ≠ 0 →
    ∀ n' < 2 ^ 36, n' ∉ boot → leafEntry d s.mem root n' ≠ 0 →
      frameOf d (leafEntry d s.mem root n) = frameOf d (leafEntry d s.mem root n') → n = n'

theorem page_cells (t : ℕ) : (block t 6).cells = pageCells t := rfl

namespace VirtOk

theorem physBits (h : VirtOk d root s fl live M early others boot) :
    d.pageCount * 4096 ≤ 2 ^ 52 := by
  have h1 := d.top
  have h2 : 0xFFFF800000000000 ≤ d.base := h.kernel
  omega

theorem table_notMem_free (h : VirtOk d root s fl live M early others boot)
    (ht : IsTable d s.mem root t) : Disjoint (pageCells t) (freeCells fl) := by
  rcases h.held t ht with hl | hM
  · rw [Set.disjoint_left]
    intro a ha hf
    obtain ⟨l, p, hp, hap⟩ := mem_freeCells.mp hf
    refine h.ok.inv.free_ne hp (Or.inl hl.1) ?_
    exact h.ok.inv.tiling.eq_of_mem (Inv.mem_all_of_free hp) (Or.inl (Or.inr hl.1)) hap ha
  · exact hM.mono_right h.ok.inv.freeCells_subset

theorem table_head (h : VirtOk d root s fl live M early others boot)
    (ht : IsTable d s.mem root t) {a l : ℕ} (ha : a ∈ pageCells t) (hl : l < 16) :
    a ≠ d.head l := by
  rintro rfl
  exact Inv.head_notMem_range hl (h.tables.range t ht ha)

/-- A block of another client is not a table. -/
theorem table_notMem_other (h : VirtOk d root s fl live M early others boot)
    (ht : IsTable d s.mem root t) (hb : b ∈ others) : Disjoint (pageCells t) b.cells := by
  have hbl : b ∈ freeBlocks fl ∪ live ∪ ∅ := Or.inl (Or.inr (h.others_live hb))
  rcases h.held t ht with hl | hM
  · rw [Set.disjoint_left]
    intro a ha hab
    have := h.ok.inv.tiling.eq_of_mem (Or.inl (Or.inr hl.1)) hbl ha hab
    exact hl.2 (this ▸ hb)
  · exact hM.mono_right (h.ok.inv.tiling.subset hbl)

theorem table_frame (h : VirtOk d root s fl live M early others boot)
    (ht : IsTable d s.mem root t) {W : Set ℕ} {m : Memory} (hf : Frame d W s.mem m)
    (hW : Disjoint (pageCells t) W) : ∀ a ∈ pageCells t, m a = s.mem a := fun a ha =>
  hf a (fun hw => Set.disjoint_left.mp hW ha hw) fun _ hl => h.table_head ht ha hl

/-- A step of the physical allocator or of another client that touches no table. -/
theorem transport (h : VirtOk d root s fl live M early others boot)
    (hok : s'.Ok d fl' live' M early)
    (hmem : ∀ t, IsTable d s.mem root t → ∀ a ∈ pageCells t, s'.mem a = s.mem a)
    (hothers : others' ⊆ live')
    (hheld : ∀ t, IsTable d s.mem root t → block t 6 ∈ live \ others → block t 6 ∈ live' \ others')
    (hboot : boot ⊆ boot')
    (hframe : ∀ n < 2 ^ 36, n ∉ boot' → leafEntry d s.mem root n ≠ 0 →
      block (frameOf d (leafEntry d s.mem root n)) 6 ∈ live' \ others') :
    VirtOk d root s' fl' live' M early others' boot' := by
  obtain ⟨htab, htables, hleaf⟩ := h.tables.frame hmem
  have hiff : ∀ t, IsTable d s'.mem root t → IsTable d s.mem root t := by
    rintro t ⟨i, hi, k, hk, ht⟩
    exact ⟨i, hi, k, hk, htab i hi k hk ▸ ht⟩
  refine ⟨hok, h.kernel, htables, fun t ht => (h.held t (hiff t ht)).imp_left (hheld t (hiff t ht)),
    hothers, fun n hn hb hne => ?_, fun n hn hb hne n' hn' hb' hne' he => ?_⟩
  · rw [hleaf n hn] at hne ⊢
    exact ⟨hframe n hn hb hne, fun ht =>
      (h.frame n hn (fun hb' => hb (hboot hb')) hne).2 (hiff _ ht)⟩
  · rw [hleaf n hn] at hne he
    rw [hleaf n' hn'] at hne' he
    exact h.frame_inj n hn (fun hc => hb (hboot hc)) hne n' hn' (fun hc => hb' (hboot hc)) hne' he

theorem mono_boot (h : VirtOk d root s fl live M early others boot) (hboot : boot ⊆ boot') :
    VirtOk d root s fl live M early others boot' :=
  h.transport h.ok (fun _ _ _ _ => rfl) h.others_live (fun _ _ ht => ht) hboot
    fun n hn hb hne => (h.frame n hn (fun hc => hb (hboot hc)) hne).1

/-- A word of a table is nothing to the allocator. -/
theorem ok_store (h : VirtOk d root s fl live M early others boot)
    (ht : IsTable d s.mem root t) (hp : p ∈ pageCells t) (v : ℕ) :
    (s.setEntry p v).Ok d fl live M early := by
  refine h.ok.congr_mem (fun l hl => ?_) fun a ha => ?_
  · exact Memory.store_of_ne _ _ (h.table_head ht hp hl).symm
  · refine Memory.store_of_ne _ _ ?_
    rintro rfl
    exact Set.disjoint_left.mp (h.table_notMem_free ht) hp ha

/-- The leaf entry of the page `n` is set to `v`. -/
theorem setLeaf (h : VirtOk d root s fl live M early others (insert n boot)) (hn : n < 2 ^ 36)
    (hs : slot d s.mem root n = some p)
    (hv : n ∉ boot → v ≠ 0 → block (frameOf d v) 6 ∈ live \ others ∧
      ¬ IsTable d s.mem root (frameOf d v) ∧
      ∀ n' < 2 ^ 36, n' ∉ insert n boot → leafEntry d s.mem root n' ≠ 0 →
        frameOf d (leafEntry d s.mem root n') ≠ frameOf d v) :
    VirtOk d root (s.setEntry p v) fl live M early others boot := by
  obtain ⟨htab, hself, hother⟩ := h.tables.store_slot hn hs v
  obtain ⟨t, ht, hp⟩ := TablesOk.isTable_slot hn hs
  have hmem : p ∈ pageCells t := hp ▸ entryPtr_mem_pageCells (Nat.mod_lt _ (by decide))
  have hiff : ∀ t, IsTable d (s.mem.store p v) root t → IsTable d s.mem root t := by
    rintro t ⟨i, hi, k, hk, ht⟩
    exact ⟨i, hi, k, hk, htab i hi k hk ▸ ht⟩
  refine ⟨h.ok_store ht hmem v, h.kernel, h.tables.of_tableAt_eq htab,
    fun t ht => h.held t (hiff t ht), h.others_live, fun n' hn' hb hne => ?_,
    fun n' hn' hb hne n'' hn'' hb' hne' he => ?_⟩
  · simp only [setEntry] at hne ⊢
    by_cases hnn : n' = n
    · subst hnn
      rw [hself] at hne ⊢
      obtain ⟨h1, h2, -⟩ := hv hb hne
      exact ⟨h1, fun hx => h2 (hiff _ hx)⟩
    · rw [hother n' hn' hnn] at hne ⊢
      obtain ⟨h1, h2⟩ := h.frame n' hn' (by simp [hnn, hb]) hne
      exact ⟨h1, fun hx => h2 (hiff _ hx)⟩
  · simp only [setEntry] at hne hne' he
    by_cases h1 : n' = n <;> by_cases h2 : n'' = n
    · rw [h1, h2]
    · subst h1
      rw [hself] at hne he
      rw [hother n'' hn'' h2] at hne' he
      exact absurd he.symm ((hv hb hne).2.2 n'' hn'' (by simp [h2, hb']) hne')
    · subst h2
      rw [hself] at hne' he
      rw [hother n' hn' h1] at hne he
      exact absurd he ((hv hb' hne').2.2 n' hn' (by simp [h1, hb]) hne)
    · rw [hother n' hn' h1] at hne he
      rw [hother n'' hn'' h2] at hne' he
      exact h.frame_inj n' hn' (by simp [h1, hb]) hne n'' hn'' (by simp [h2, hb']) hne' he

/-- An empty entry is filled with a new table. -/
theorem insertTable {i k j : ℕ} (h : VirtOk d root s fl live M early others boot)
    (hi : TablesOk.Insert d s.mem root i k j t x v) (hx : block x 6 ∈ live \ others)
    (hf : ∀ n < 2 ^ 36, n ∉ boot → leafEntry d s.mem root n ≠ 0 →
      frameOf d (leafEntry d s.mem root n) ≠ x) :
    VirtOk d root (s.setEntry (entryPtr t j) v) fl live M early others boot := by
  have hleaf := fun n (hn : n < 2 ^ 36) => hi.leafEntry_eq h.tables hn
  refine ⟨h.ok_store hi.isTable (entryPtr_mem_pageCells hi.index) v, h.kernel,
    hi.tablesOk h.tables, fun u hu => ?_, h.others_live, fun n hn hb hne => ?_,
    fun n hn hb hne n' hn' hb' hne' he => ?_⟩
  · rcases (hi.isTable_iff h.tables).mp hu with hu | rfl
    · exact h.held u hu
    · exact Or.inl hx
  · simp only [setEntry] at hne ⊢
    rw [hleaf n hn] at hne ⊢
    obtain ⟨h1, h2⟩ := h.frame n hn hb hne
    exact ⟨h1, fun hu => ((hi.isTable_iff h.tables).mp hu).elim h2 (hf n hn hb hne)⟩
  · simp only [setEntry] at hne hne' he
    rw [hleaf n hn] at hne he
    rw [hleaf n' hn'] at hne' he
    exact h.frame_inj n hn hb hne n' hn' hb' hne' he

end VirtOk

end Phys

end Tomato
