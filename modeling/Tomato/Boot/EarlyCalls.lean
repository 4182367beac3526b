import Tomato.Boot.EarlyTables

/-!
# Mapping pages before the hand-over

What `early_virt_map` and the pages of the buddy bitmap do to the leaf entries, and what
`early_phys_add_memory` leaves behind.
-/

namespace Tomato

open Blocks Radix Memmap

variable {d : DirectMap} {entries : Memmap} {root : ℕ} {b b' : Boot} {xs : List ℕ}
  {virt phys phys' flags addr numPages : ℕ}

theorem mappedEntry_ne_zero : Boot.mappedEntry phys flags ≠ 0 := by
  intro h
  have h' := (Nat.or_eq_zero_iff.mp (Nat.or_eq_zero_iff.mp (Nat.or_eq_zero_iff.mp h).1).1).2
  exact absurd h' (by decide)

theorem pageNumber_mem_rangeOf {i : ℕ} (hi : i < numPages) :
    pageNumber (pageAddr virt i) ∈ rangeOf virt numPages := ⟨i, hi, rfl⟩

namespace EarlyOk

/-- The first page of the early allocator is an empty page table. -/
theorem start (hv : entries.Valid) (hd : entries.HasDirectMap d) (hk : KERNEL_REGION_BASE ≤ d.base)
    (h0 : b.Initial d) (he : b.earlyPhysAllocPage d entries = some (root, b')) :
    ∃ x xs, usablePages entries = x :: xs ∧ EarlyOk d entries root b' xs ∧
      ∀ n < 2 ^ 36, leafEntry d b'.mem root n = 0 := by
  have hw : Watermark entries b.early (usablePages entries) := by
    rw [h0.1]
    exact .start
  obtain ⟨ys, hys⟩ : ∃ ys, ys = usablePages entries := ⟨_, rfl⟩
  rw [← hys] at hw
  cases ys with
  | nil => simp [hw.earlyPhysAllocPage_nil hv] at he
  | cons x xs =>
      obtain ⟨b1, e, hw1, -, hc⟩ := hw.earlyPhysAllocPage (d := d) hv
      obtain ⟨rfl, rfl⟩ := Prod.mk.inj (Option.some.inj (he.symm.trans e))
      have hx : x ∈ usablePages entries := hys ▸ List.mem_cons_self
      have hnd : x ∉ xs := (List.nodup_cons.mp (hys ▸ hv.usablePages_nodup)).1
      obtain ⟨hdvd, hrange⟩ := usablePage_spec hv hd hx
      have hmem : b'.mem = b.mem.zero (d.physToDirect x) PAGE_SIZE := by
        rw [Boot.mem, hc, Boot.setMem]
        rfl
      have hempty : ∀ j < 512, nextTable d b'.mem (d.physToDirect x) j = none := by
        intro j hj
        have hcell := entryPtr_mem_pageCells (t := d.physToDirect x) hj
        have hzero : b'.mem (entryPtr (d.physToDirect x) j) = 0 := by
          rw [hmem]
          exact Memory.zero_of_mem _ hcell.1 hcell.2
        rw [nextTable, hzero]
        rfl
      have htable : ∀ t, IsTable d b'.mem (d.physToDirect x) t → t = d.physToDirect x := by
        rintro t ⟨i, -, k, hk, ht⟩
        cases i with
        | zero => exact (Option.some.inj ht).symm
        | succ i => simp [tableAt_of_empty hempty hk] at ht
      refine ⟨x, xs, hys.symm, ⟨hv, hd, hk, ?_, hw1, hys ▸ List.suffix_cons x xs,
        ⟨separate_of_empty hempty, fun t ht => htable t ht ▸ hdvd, fun t ht => htable t ht ▸ hrange⟩,
        fun t ht => ⟨x, hx, hnd, htable t ht⟩⟩, fun n hn => ?_⟩
      · rw [hc]
        obtain ⟨hheads, hrest⟩ := h0.2
        refine ⟨fun l hl => ?_, hrest⟩
        have hout : d.head l ∉ pageCells (d.physToDirect x) := fun hh =>
          Phys.Inv.head_notMem_range hl (hrange hh)
        refine (Memory.zero_of_notMem _ ?_).trans (hheads l hl)
        simp only [pageCells, Set.mem_Ico] at hout
        rw [PAGE_SIZE_eq]
        omega
      · rw [leafEntry, slot, tableAt_of_empty hempty (pageNumber_div_lt hn)]
        rfl

/-- One page is mapped, or there is no page for a table, or it was mapped before. -/
theorem earlyVirtMapPage (h : EarlyOk d entries root b xs)
    (he : Boot.earlyVirtMapPage d entries root flags addr (phys, b) = some (phys', b')) :
    phys' = (phys + PAGE_SIZE) % 2 ^ 64 ∧
      leafEntry d b.mem root (pageNumber addr) = 0 ∧
      leafEntry d b'.mem root (pageNumber addr) = Boot.mappedEntry phys flags ∧
      ∃ xs', EarlyTouched d entries root b b' xs' {pageNumber addr} ∧
        xs.length ≤ xs'.length + 3 := by
  rcases h.getPte addr with ⟨e, -⟩ | ⟨p, b1, xs1, e, ht, hlen, hp⟩
  · simp [Boot.earlyVirtMapPage, e] at he
  simp only [Boot.earlyVirtMapPage, e, Option.bind_eq_bind, Option.bind_some] at he
  split at he
  · simp at he
  rename_i h0
  obtain ⟨rfl, rfl⟩ := Prod.mk.inj (Option.some.inj he)
  have hn := pageNumber_lt addr
  obtain ⟨ht', hself⟩ := ht.ok.touch hn hp (Boot.mappedEntry phys flags)
  refine ⟨rfl, ?_, hself, xs1, (ht.trans ht').mono (by simp), hlen⟩
  rw [← ht.leaf _ hn (Set.notMem_empty _), leafEntry, hp]
  simpa using h0

/-- A page can be mapped as long as it is empty and there are pages for the tables. -/
theorem earlyVirtMapPage_isSome (h : EarlyOk d entries root b xs) (hxs : 3 ≤ xs.length)
    (h0 : leafEntry d b.mem root (pageNumber addr) = 0) (phys flags : ℕ) :
    ∃ r, Boot.earlyVirtMapPage d entries root flags addr (phys, b) = some r := by
  rcases h.getPte addr with ⟨-, hlt⟩ | ⟨p, b1, xs1, e, ht, -, hp⟩
  · omega
  have hzero : b1.mem p = 0 := by
    rw [← ht.leaf _ (pageNumber_lt addr) (Set.notMem_empty _), leafEntry, hp] at h0
    simpa using h0
  simp [Boot.earlyVirtMapPage, e, hzero]

/-- The loop of `early_virt_map`: every page of the range was empty. -/
theorem forPages_earlyVirtMapPage (h : EarlyOk d entries root b xs) (hphys : phys < 2 ^ 64)
    (he : forPages virt (Boot.earlyVirtMapPage d entries root flags) numPages (phys, b) =
      some (phys', b')) :
    phys' = (phys + numPages * PAGE_SIZE) % 2 ^ 64 ∧
      (∃ xs', EarlyTouched d entries root b b' xs' (rangeOf virt numPages)) ∧
      ∀ i < numPages, leafEntry d b.mem root (pageNumber (pageAddr virt i)) = 0 ∧
        leafEntry d b'.mem root (pageNumber (pageAddr virt i)) =
          Boot.mappedEntry ((phys + i * PAGE_SIZE) % 2 ^ 64) flags := by
  induction numPages generalizing phys' b' with
  | zero =>
      obtain ⟨hp, rfl⟩ := Prod.mk.inj (Option.some.inj he)
      refine ⟨?_, ⟨xs, .refl h _⟩, by simp⟩
      rw [zero_mul, add_zero, Nat.mod_eq_of_lt hphys, hp]
  | succ k ih =>
      obtain ⟨⟨phys1, b1⟩, he1, he2⟩ := Option.bind_eq_some_iff.mp he
      obtain ⟨hp1, ⟨xs1, ht1⟩, hall⟩ := ih he1
      obtain ⟨hp2, hzero, hval, xs2, ht2, -⟩ := ht1.ok.earlyVirtMapPage he2
      -- the page is not one of those before it, as these are not empty any more
      have hnew : pageNumber (pageAddr virt k) ∉ rangeOf virt k := by
        rintro ⟨i, hi, heq⟩
        rw [← heq, (hall i hi).2] at hzero
        exact mappedEntry_ne_zero hzero
      refine ⟨?_, ⟨xs2, (ht1.trans ht2).mono (by rw [Phys.rangeOf_succ])⟩, fun i hi => ?_⟩
      · have hsum : phys + k * PAGE_SIZE + PAGE_SIZE = phys + (k + 1) * PAGE_SIZE := by ring
        rw [hp2, hp1, Nat.mod_add_mod, hsum]
      rcases Nat.lt_succ_iff_lt_or_eq.mp hi with hi | rfl
      · refine ⟨(hall i hi).1, ?_⟩
        rw [ht2.leaf _ (pageNumber_lt _), (hall i hi).2]
        rintro heq
        exact hnew (heq ▸ pageNumber_mem_rangeOf hi)
      · exact ⟨(ht1.leaf _ (pageNumber_lt _) hnew).symm.trans hzero, hp1 ▸ hval⟩

theorem earlyVirtMap (h : EarlyOk d entries root b xs) (hphys : phys < 2 ^ 64)
    (he : b.earlyVirtMap d entries root virt phys numPages flags = some b') :
    (∃ xs', EarlyTouched d entries root b b' xs' (rangeOf virt numPages)) ∧
      ∀ i < numPages, leafEntry d b.mem root (pageNumber (pageAddr virt i)) = 0 ∧
        leafEntry d b'.mem root (pageNumber (pageAddr virt i)) =
          Boot.mappedEntry ((phys + i * PAGE_SIZE) % 2 ^ 64) flags := by
  obtain ⟨⟨phys', b1⟩, he1, rfl⟩ := Option.map_eq_some_iff.mp he
  exact (h.forPages_earlyVirtMapPage hphys he1).2

/-- A page of the buddy bitmap is mapped to a page of its own, unless it is there. -/
theorem earlyMapBitmapPage (h : EarlyOk d entries root b xs)
    (he : b.earlyMapBitmapPage d entries root addr = some b') :
    ∃ xs', EarlyTouched d entries root b b' xs' {pageNumber addr} ∧ xs.length ≤ xs'.length + 4 ∧
      ((leafEntry d b.mem root (pageNumber addr) &&& IA32_PG_P ≠ 0 ∧
        leafEntry d b'.mem root (pageNumber addr) = leafEntry d b.mem root (pageNumber addr)) ∨
      ∃ x ∈ usablePages entries, x ∉ xs' ∧
        leafEntry d b.mem root (pageNumber addr) &&& IA32_PG_P = 0 ∧
        leafEntry d b'.mem root (pageNumber addr) = x ||| Boot.bitmapFlags) := by
  have hn := pageNumber_lt addr
  rcases h.getPte addr with ⟨e, -⟩ | ⟨p, b1, xs1, e, ht, hlen, hp⟩
  · simp [Boot.earlyMapBitmapPage, e] at he
  have hleaf : leafEntry d b.mem root (pageNumber addr) = b1.mem p := by
    rw [← ht.leaf _ hn (Set.notMem_empty _), leafEntry, hp]
    rfl
  simp only [Boot.earlyMapBitmapPage, e, Option.bind_eq_bind, Option.bind_some] at he
  split at he
  · rename_i hpres
    obtain rfl := Option.some.inj he
    exact ⟨xs1, ht.mono (Set.empty_subset _), by omega,
      Or.inl ⟨hleaf ▸ hpres, ht.leaf _ hn (by simp)⟩⟩
  · rename_i hpres
    obtain ⟨⟨page, b2⟩, e2, he⟩ := Option.bind_eq_some_iff.mp he
    obtain rfl := Option.some.inj he
    cases xs1 with
    | nil => simp [ht.ok.alloc_nil] at e2
    | cons x xs2 =>
        obtain ⟨b3, e3, h3, htab, hleaf3, -, -, -, hx, hxs⟩ := ht.ok.alloc
        obtain ⟨rfl, rfl⟩ := Prod.mk.inj (Option.some.inj (e2.symm.trans e3))
        have ht3 : EarlyTouched d entries root b1 b2 xs2 ∅ :=
          ⟨h3, fun n hn _ => hleaf3 n hn, fun i hi k hk t ht => (htab i hi k hk).trans ht⟩
        obtain ⟨ht4, hself⟩ := h3.touch hn (ht3.slot hn hp)
          (d.directToPhys (d.physToDirect x) ||| Boot.bitmapFlags)
        rw [List.length_cons] at hlen
        refine ⟨xs2, ((ht.trans ht3).trans ht4).mono (by simp), by omega,
          Or.inr ⟨x, hx, hxs, by simpa [hleaf] using hpres, ?_⟩⟩
        rw [hself, DirectMap.directToPhys, DirectMap.physToDirect, Nat.add_sub_cancel_left]

/-- After the hand-over the page table is one of the physical allocator, whose memory is
disjoint from the tables. -/
theorem earlyPhysAddMemory (h : EarlyOk d entries root b xs) :
    ∃ b', b.earlyPhysAddMemory d entries = some b' ∧ b'.clients.live = [] ∧
      (∀ n < 2 ^ 36, leafEntry d b'.mem root n = leafEntry d b.mem root n) ∧
      b'.clients.phys.acct.reserved = 0 ∧
      (∀ a ∈ b'.clients.added, ∃ u ∈ entries, u.type = .usable ∧
        a ∈ Set.Ico (d.base + u.base) (d.base + (u.base + u.length))) ∧
      ∃ fl, Phys.VirtOk d root b'.clients.phys fl ∅ b'.clients.added b'.clients.early ∅
        {n | leafEntry d b.mem root n ≠ 0} := by
  obtain ⟨htop, hpages⟩ := h.watermark.handOver h.valid
  have hnone : b.clients.added = ∅ := by simp [Clients.added, h.initial.2.2.2.2.1]
  obtain ⟨t, e, ht, hr, -, -, hres, hlive, hf⟩ := earlyAddEntries_spec h.valid
    (fun u hu ht => by
      rw [h.direct.pageCount_mul h.valid]
      exact h.valid.le_topAddress hu (by simp [mapped, ht]))
    htop (.start h.initial) (by simp [hnone])
  rw [h.initial.2.2.2.2.1, List.append_nil] at hr
  -- a table is a page that was handed out early
  have hsep : ∀ u, IsTable d b.mem root u → Disjoint (pageCells u) t.added := by
    intro u hu
    obtain ⟨x, hx, hxs, rfl⟩ := h.used u hu
    have hdvd : PAGE_SIZE ∣ x := (h.valid.mem_usablePages.mp hx).1
    rw [Set.disjoint_left]
    rintro a ha ⟨r, hrm, har⟩
    rw [hr, List.mem_reverse, List.mem_map] at hrm
    obtain ⟨q, hq, rfl⟩ := hrm
    obtain ⟨h1, h2, h3⟩ := h.valid.handOver_aligned htop q hq
    refine hxs (hpages ▸ List.mem_flatMap.mpr ⟨q, hq, ?_⟩)
    rw [rangePages, mem_pagesFrom h1 (Nat.dvd_sub h2 h1)]
    simp only [pageCells, DirectMap.physToDirect, DirectMap.directRange, Set.mem_Ico] at ha har
    rw [PAGE_SIZE_eq] at *
    exact ⟨hdvd, by omega, by omega⟩
  have hmem : ∀ u, IsTable d b.mem root u → ∀ a ∈ pageCells u, t.phys.mem a = b.mem a :=
    fun u hu a ha => hf a (fun hc => Set.disjoint_left.mp (hsep u hu) ha hc) fun l hl he =>
      Phys.Inv.head_notMem_range hl (he ▸ h.tables.range u hu ha)
  obtain ⟨htab, htables, hleaf⟩ := h.tables.frame hmem
  have hiff : ∀ u, IsTable d t.phys.mem root u → IsTable d b.mem root u := by
    rintro u ⟨i, hi, k, hk, hu⟩
    exact ⟨i, hi, k, hk, htab i hi k hk ▸ hu⟩
  obtain ⟨-, fl, ho⟩ := Clients.good_of_reachable ht
  have hl : t.liveSet = ∅ := by
    rw [Clients.liveSet, hlive, h.initial.2.2.2.1]
    simp
  rw [hl] at ho
  refine ⟨{ b with clients := { t.setAcct (t.phys.acct.memAcctAddCommitted b.early.pageCount) with
    early := t.early + b.early.pageCount } }, ?_, hlive.trans h.initial.2.2.2.1, hleaf,
    hres.trans (by rw [h.initial.2.2.1]), ?_, fl,
    ho.memAcctAddCommitted _, h.kernel, htables, fun u hu => Or.inr (hsep u (hiff u hu)),
    subset_rfl, fun n hn hb hne => ?_, fun n hn hb hne => ?_⟩
  · simp only [Boot.earlyPhysAddMemory, e, Option.bind_some, Clients.exec, Option.map_some]
  · rintro a ⟨r, hrm, har⟩
    change r ∈ t.ranges at hrm
    rw [hr, List.mem_reverse, List.mem_map] at hrm
    obtain ⟨q, hq, rfl⟩ := hrm
    obtain ⟨u, hu, rfl⟩ := List.mem_map.mp hq
    obtain ⟨hu, hp⟩ := List.mem_filter.mp hu
    simp only [Bool.and_eq_true, beq_iff_eq, decide_eq_true_eq] at hp
    refine ⟨u, hu, hp.1, ?_⟩
    simp only [DirectMap.directRange, DirectMap.physToDirect, Set.mem_Ico] at har ⊢
    omega
  · exact absurd (fun h0 => hne ((hleaf n hn).trans h0)) hb
  · exact absurd (fun h0 => hne ((hleaf n hn).trans h0)) hb

end EarlyOk

end Tomato
