import Tomato.Boot.Virt

/-!
# The tables before the hand-over

While the boot code fills the page table, every table is a page that the early allocator
has handed out. Each of its steps either fails, or keeps the leaf entries of all the pages
that it is not about.
-/

namespace Tomato

open Radix Memmap

variable {d : DirectMap} {entries : Memmap} {root : ℕ} {b b' b'' : Boot} {xs xs' xs'' : List ℕ}
  {i j k n p t v virt x phys flags addr pageCount : ℕ} {W W' : Set ℕ}

/-- What holds before the hand-over, `xs` being the pages that are left. -/
structure EarlyOk (d : DirectMap) (entries : Memmap) (root : ℕ) (b : Boot) (xs : List ℕ) :
    Prop where
  valid : entries.Valid
  direct : entries.HasDirectMap d
  kernel : KERNEL_REGION_BASE ≤ d.base
  initial : Clients.Initial d b.clients
  watermark : Watermark entries b.early xs
  suffix : xs <:+ usablePages entries
  tables : TablesOk d b.mem root
  used : ∀ t, IsTable d b.mem root t → ∃ x ∈ usablePages entries, x ∉ xs ∧ t = d.physToDirect x

/-- A page of a usable entry in the direct map. -/
theorem usablePage_spec (hv : entries.Valid) (hd : entries.HasDirectMap d)
    (hx : x ∈ usablePages entries) :
    4096 ∣ d.physToDirect x ∧ pageCells (d.physToDirect x) ⊆ d.range := by
  obtain ⟨hdvd, e, he, hu, hle, hend⟩ := hv.mem_usablePages.mp hx
  have htop := hv.le_topAddress he (by simp [mapped, hu])
  rw [← hd.pageCount_mul hv] at htop
  rw [PAGE_SIZE_eq] at hdvd hend
  refine ⟨Nat.dvd_add ((by decide : (4096 : ℕ) ∣ 2 ^ 21).trans d.base_aligned) hdvd, ?_⟩
  intro a ha
  simp only [pageCells, DirectMap.physToDirect, DirectMap.range, Set.mem_Ico] at ha ⊢
  omega

namespace EarlyOk

theorem physBits (h : EarlyOk d entries root b xs) : d.pageCount * 4096 ≤ 2 ^ 52 := by
  have h1 := d.top
  have h2 : 0xFFFF800000000000 ≤ d.base := h.kernel
  omega

theorem setMem_initial (h : EarlyOk d entries root b xs) {m : Memory}
    (hm : ∀ a, a ∉ d.range → m a = b.mem a) : Clients.Initial d (b.setMem m).clients := by
  obtain ⟨hheads, hrest⟩ := h.initial
  exact ⟨fun l hl => (hm _ (Phys.Inv.head_notMem_range hl)).trans (hheads l hl), hrest⟩

/-- The early allocator hands out a page of zero bytes that no table uses. -/
theorem alloc (h : EarlyOk d entries root b (x :: xs)) :
    ∃ b', b.earlyPhysAllocPage d entries = some (d.physToDirect x, b') ∧
      EarlyOk d entries root b' xs ∧
      (∀ i ≤ 3, ∀ k < 512 ^ i, tableAt (nextTable d b'.mem) root 512 i k =
        tableAt (nextTable d b.mem) root 512 i k) ∧
      (∀ n < 2 ^ 36, leafEntry d b'.mem root n = leafEntry d b.mem root n) ∧
      (∀ a ∈ pageCells (d.physToDirect x), b'.mem a = 0) ∧
      (∀ t, IsTable d b.mem root t → ∀ a ∈ pageCells t, b'.mem a = b.mem a) ∧
      ¬ IsTable d b'.mem root (d.physToDirect x) ∧ x ∈ usablePages entries ∧ x ∉ xs := by
  obtain ⟨b', e, hw, -, hc⟩ := h.watermark.earlyPhysAllocPage (d := d) h.valid
  have hx : x ∈ usablePages entries := h.suffix.subset List.mem_cons_self
  have hnd : x ∉ xs := (List.nodup_cons.mp (h.valid.usablePages_nodup.sublist h.suffix.sublist)).1
  obtain ⟨hdvd, hrange⟩ := usablePage_spec h.valid h.direct hx
  have hmem : b'.mem = b.mem.zero (d.physToDirect x) PAGE_SIZE := by
    rw [Boot.mem, hc, Boot.setMem]
    rfl
  have hout : ∀ a, a ∉ pageCells (d.physToDirect x) → b'.mem a = b.mem a := by
    intro a ha
    rw [hmem]
    refine Memory.zero_of_notMem _ ?_
    simp only [pageCells, Set.mem_Ico] at ha
    rw [PAGE_SIZE_eq]
    omega
  have hne : ∀ t, IsTable d b.mem root t → t ≠ d.physToDirect x := by
    rintro t ht rfl
    obtain ⟨y, -, hy, he⟩ := h.used _ ht
    obtain rfl : x = y := Nat.add_left_cancel he
    exact hy List.mem_cons_self
  have hsame : ∀ t, IsTable d b.mem root t → ∀ a ∈ pageCells t, b'.mem a = b.mem a :=
    fun t ht a ha => hout a fun hc => Set.disjoint_left.mp
      (pageCells_disjoint (h.tables.aligned t ht) hdvd (hne t ht)) ha hc
  obtain ⟨htab, htables, hleaf⟩ := h.tables.frame hsame
  have hiff : ∀ t, IsTable d b'.mem root t → IsTable d b.mem root t := by
    rintro t ⟨i, hi, k, hk, ht⟩
    exact ⟨i, hi, k, hk, htab i hi k hk ▸ ht⟩
  refine ⟨b', e, ⟨h.valid, h.direct, h.kernel, ?_, hw, (List.suffix_cons x xs).trans h.suffix,
    htables, fun t ht => ?_⟩, htab, hleaf, fun a ha => ?_, hsame, fun ht => hne _ (hiff _ ht) rfl, hx,
    hnd⟩
  · rw [hc]
    refine h.setMem_initial fun a ha => ?_
    have := hout a fun hc => ha (hrange hc)
    rwa [hmem] at this
  · obtain ⟨y, hy, hyx, rfl⟩ := h.used t (hiff t ht)
    exact ⟨y, hy, fun hc => hyx (List.mem_cons_of_mem _ hc), rfl⟩
  · rw [hmem]
    exact Memory.zero_of_mem _ ha.1 ha.2

theorem alloc_nil (h : EarlyOk d entries root b []) : b.earlyPhysAllocPage d entries = none :=
  h.watermark.earlyPhysAllocPage_nil h.valid

end EarlyOk

/-- No leaf entry but those of the pages in `W` changes, and no table goes away. -/
structure EarlyTouched (d : DirectMap) (entries : Memmap) (root : ℕ) (b b' : Boot)
    (xs' : List ℕ) (W : Set ℕ) : Prop where
  ok : EarlyOk d entries root b' xs'
  leaf : ∀ n < 2 ^ 36, n ∉ W → leafEntry d b'.mem root n = leafEntry d b.mem root n
  table : ∀ i ≤ 3, ∀ k < 512 ^ i, ∀ t, tableAt (nextTable d b.mem) root 512 i k = some t →
    tableAt (nextTable d b'.mem) root 512 i k = some t

namespace EarlyTouched

theorem refl (h : EarlyOk d entries root b xs) (W : Set ℕ) :
    EarlyTouched d entries root b b xs W :=
  ⟨h, fun _ _ _ => rfl, fun _ _ _ _ _ ht => ht⟩

theorem trans (h : EarlyTouched d entries root b b' xs' W)
    (h' : EarlyTouched d entries root b' b'' xs'' W') :
    EarlyTouched d entries root b b'' xs'' (W ∪ W') where
  ok := h'.ok
  leaf := fun n hn hw => (h'.leaf n hn fun hc => hw (Or.inr hc)).trans
    (h.leaf n hn fun hc => hw (Or.inl hc))
  table := fun i hi k hk t ht => h'.table i hi k hk t (h.table i hi k hk t ht)

theorem mono (h : EarlyTouched d entries root b b' xs' W) (hW : W ⊆ W') :
    EarlyTouched d entries root b b' xs' W' :=
  ⟨h.ok, fun n hn hw => h.leaf n hn fun hc => hw (hW hc), h.table⟩

theorem slot (h : EarlyTouched d entries root b b' xs' W) (hn : n < 2 ^ 36)
    (hs : slot d b.mem root n = some p) : Tomato.slot d b'.mem root n = some p := by
  obtain ⟨t, ht, rfl⟩ := slot_eq_some hs
  rw [Tomato.slot, h.table 3 le_rfl _ (pageNumber_div_lt hn) t ht]
  rfl

end EarlyTouched

namespace EarlyOk

/-- A missing table is made, or there is no page for it. -/
theorem nextLevel (h : EarlyOk d entries root b xs) (hi : i < 3) (hk : k < 512 ^ i) (hj : j < 512)
    (ht : tableAt (nextTable d b.mem) root 512 i k = some t) :
    (b.earlyVirtGetNextLevel d entries (entryPtr t j) = none ∧ xs = []) ∨
      ∃ u b' xs', b.earlyVirtGetNextLevel d entries (entryPtr t j) = some (u, b') ∧
        EarlyTouched d entries root b b' xs' ∅ ∧ xs.length ≤ xs'.length + 1 ∧
        tableAt (nextTable d b'.mem) root 512 (i + 1) (k * 512 + j) = some u := by
  have htab : IsTable d b.mem root t := ⟨i, hi.le, k, hk, ht⟩
  by_cases hp : b.mem (entryPtr t j) &&& IA32_PG_P = 0
  swap
  · refine Or.inr ⟨d.physToDirect (b.mem (entryPtr t j) &&& PAGING_4K_ADDRESS_MASK), b, xs,
      by simp [Boot.earlyVirtGetNextLevel, hp], .refl h _, by omega, ?_⟩
    rw [tableAt_append hj, ht, Option.bind_some, nextTable, if_neg hp]
  cases xs with
  | nil => exact Or.inl ⟨by simp [Boot.earlyVirtGetNextLevel, hp, h.alloc_nil], rfl⟩
  | cons x xs =>
      obtain ⟨b1, e, h1, htab1, hleaf1, hzero, hsame, hfresh, hx, hxs⟩ := h.alloc
      obtain ⟨hdvd, hrange⟩ := usablePage_spec h.valid h.direct hx
      obtain ⟨v, hv⟩ : ∃ v, v = d.directToPhys (d.physToDirect x) ||| IA32_PG_P ||| IA32_PG_RW :=
        ⟨_, rfl⟩
      obtain ⟨hvp, hvx⟩ := Phys.newEntry_spec h.physBits hdvd hrange
        (show (IA32_PG_P ||| IA32_PG_RW) &&& IA32_PG_P ≠ 0 by decide)
        (show (IA32_PG_P ||| IA32_PG_RW) &&& PAGING_4K_ADDRESS_MASK = 0 by decide)
      rw [← Nat.or_assoc, ← hv] at hvp hvx
      have hins : TablesOk.Insert d b1.mem root i k j t (d.physToDirect x) v :=
        { level := hi
          key := hk
          index := hj
          table := (htab1 i hi.le k hk).trans ht
          empty := by
            rw [nextTable, hsame t htab _ (entryPtr_mem_pageCells hj)]
            exact if_pos hp
          aligned := hdvd
          range := hrange
          fresh := hfresh
          zero := hzero
          present := hvp
          address := hvx }
      have hmem : (b1.setEntry (entryPtr t j) v).mem = b1.mem.store (entryPtr t j) v := rfl
      have h2 : EarlyOk d entries root (b1.setEntry (entryPtr t j) v) xs := by
        refine ⟨h1.valid, h1.direct, h1.kernel, h1.setMem_initial fun a ha => ?_, h1.watermark,
          h1.suffix, hmem ▸ hins.tablesOk h1.tables, fun u hu => ?_⟩
        · refine Memory.store_of_ne _ _ ?_
          rintro rfl
          exact ha (h.tables.range t htab (entryPtr_mem_pageCells hj))
        · rcases (hins.isTable_iff h1.tables).mp hu with hu | rfl
          · exact h1.used u hu
          · exact ⟨x, hx, hxs, rfl⟩
      refine Or.inr ⟨d.physToDirect x, b1.setEntry (entryPtr t j) v, xs, ?_, ⟨h2, ?_, ?_⟩, by simp, ?_⟩
      · simp [Boot.earlyVirtGetNextLevel, hp, e, ← hv, hmem, hvx]
      · exact fun n hn _ => (hins.leafEntry_eq h1.tables hn).trans (hleaf1 n hn)
      · exact fun i' hi' k' hk' u hu =>
          hins.tableAt_of_some h1.tables hi' hk' ((htab1 i' hi' k' hk').trans hu)
      · rw [hmem, hins.tableAt_eq h1.tables hi (append_lt_pow hk hj), if_pos ⟨rfl, rfl⟩]

/-- The walk returns the slot of the page. -/
theorem walk (h : EarlyOk d entries root b xs) (hi : i ≤ 3)
    (ht : Phys.walkTable d b.mem root (pageNumber virt) i = some t) :
    (Boot.earlyVirtWalk d entries virt i t b = none ∧ xs.length < i) ∨
      ∃ p b' xs', Boot.earlyVirtWalk d entries virt i t b = some (p, b') ∧
        EarlyTouched d entries root b b' xs' ∅ ∧ xs.length ≤ xs'.length + i ∧
        slot d b'.mem root (pageNumber virt) = some p := by
  induction i generalizing b xs t with
  | zero =>
      refine Or.inr ⟨_, b, xs, rfl, .refl h _, le_rfl, ?_⟩
      have hs : slot d b.mem root (pageNumber virt) =
          (Phys.walkTable d b.mem root (pageNumber virt) 0).map
            fun t => entryPtr t (pageNumber virt % 512) := rfl
      rw [hs, ht, pagingIndex_eq virt (by omega)]
      simp
  | succ i ih =>
      have hn := pageNumber_lt virt
      have hj : pageNumber virt / 512 ^ (i + 1) % 512 < 512 := Nat.mod_lt _ (by decide)
      have hkey : pageNumber virt / 512 ^ (i + 1) =
          pageNumber virt / 512 ^ (i + 1 + 1) * 512 + pageNumber virt / 512 ^ (i + 1) % 512 := by
        rw [pow_succ _ (i + 1), ← Nat.div_div_eq_div_mul, Nat.div_add_mod']
      simp only [Boot.earlyVirtWalk, pagingIndex_eq virt hi, Option.bind_eq_bind]
      rcases h.nextLevel (show 3 - (i + 1) < 3 by omega) (Phys.walkKey_lt hn hi) hj ht with
        ⟨e, rfl⟩ | ⟨u, b1, xs1, e, ht1, hlen, hu⟩
      · exact Or.inl ⟨by rw [e, Option.bind_none], by simp⟩
      rw [← hkey, show 3 - (i + 1) + 1 = 3 - i by omega] at hu
      rw [e, Option.bind_some]
      rcases ih ht1.ok (by omega) hu with ⟨e', hlt⟩ | ⟨p, b', xs', e', ht', hlen', hp⟩
      · exact Or.inl ⟨e', by omega⟩
      · exact Or.inr ⟨p, b', xs', e', (ht1.trans ht').mono (by simp), by omega, hp⟩

theorem getPte (h : EarlyOk d entries root b xs) (virt : ℕ) :
    (b.earlyVirtGetPte d entries root virt = none ∧ xs.length < 3) ∨
      ∃ p b' xs', b.earlyVirtGetPte d entries root virt = some (p, b') ∧
        EarlyTouched d entries root b b' xs' ∅ ∧ xs.length ≤ xs'.length + 3 ∧
        slot d b'.mem root (pageNumber virt) = some p :=
  h.walk le_rfl (Phys.walkTable_top (s := b.clients.phys) _)

/-- The leaf entry of one page is set. -/
theorem touch (h : EarlyOk d entries root b xs) (hn : n < 2 ^ 36)
    (hs : slot d b.mem root n = some p) (v : ℕ) :
    EarlyTouched d entries root b (b.setEntry p v) xs {n} ∧
      leafEntry d (b.setEntry p v).mem root n = v := by
  have hmem : (b.setEntry p v).mem = b.mem.store p v := rfl
  obtain ⟨htab, hself, hother⟩ := h.tables.store_slot hn hs v
  obtain ⟨t, ht, rfl⟩ := TablesOk.isTable_slot hn hs
  refine ⟨⟨⟨h.valid, h.direct, h.kernel, h.setMem_initial fun a ha => ?_, h.watermark, h.suffix,
    h.tables.of_tableAt_eq htab, ?_⟩, hother, fun i hi k hk u hu => (htab i hi k hk).trans hu⟩, hself⟩
  · refine Memory.store_of_ne _ _ ?_
    rintro rfl
    exact ha (h.tables.range t ht (entryPtr_mem_pageCells (Nat.mod_lt _ (by decide))))
  · rintro u ⟨i, hi, k, hk, hu⟩
    exact h.used u ⟨i, hi, k, hk, htab i hi k hk ▸ hu⟩

end EarlyOk

end Tomato
