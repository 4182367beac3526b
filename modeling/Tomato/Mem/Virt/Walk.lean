import Tomato.Mem.Virt.Invariant

/-!
# The walk

`virt_get_pte` returns the slot of the page. Without allocation it changes nothing and
needs all the tables to be there, with allocation it fills empty entries of the upper
levels with new tables, which changes no leaf entry.
-/

namespace Tomato

open Blocks Radix

namespace Phys

variable {d : DirectMap} {root : ℕ} {s s' : Phys} {fl fl' : FreeLists}
  {live live' others : Set Block} {M boot : Set ℕ} {early n i j k p t virt : ℕ} {user : Bool}

theorem nextLevel_present (alloc : Bool) (ht : nextTable d s.mem t j = some n) :
    virtGetNextLevel d s (entryPtr t j) alloc user = some (some n, s) := by
  simp only [nextTable] at ht
  split at ht
  · simp at ht
  · rename_i hp
    simp [virtGetNextLevel, hp, Option.some.inj ht]

theorem nextLevel_absent (ht : nextTable d s.mem t j = none) :
    virtGetNextLevel d s (entryPtr t j) false user = none := by
  simp only [nextTable] at ht
  split at ht
  · rename_i hp
    simp [virtGetNextLevel, hp]
  · simp at ht

/-- The table of the level `i` on the walk to the page. -/
abbrev walkTable (d : DirectMap) (m : Memory) (root n i : ℕ) : Option ℕ :=
  tableAt (nextTable d m) root 512 (3 - i) (n / 512 ^ (i + 1))

theorem walkKey_lt (hn : n < 2 ^ 36) (hi : i ≤ 3) : n / 512 ^ (i + 1) < 512 ^ (3 - i) := by
  interval_cases i <;> simp <;> omega

theorem walkTable_succ (d : DirectMap) (m : Memory) (root n : ℕ) (hi : i < 3) :
    walkTable d m root n i = (walkTable d m root n (i + 1)).bind fun t =>
      nextTable d m t (n / 512 ^ (i + 1) % 512) := by
  have hsub : 3 - i = 3 - (i + 1) + 1 := by omega
  rw [walkTable, hsub, tableAt_succ, Nat.div_div_eq_div_mul, ← pow_succ]

theorem walkTable_zero : (walkTable d s.mem root n 0).map (fun t => entryPtr t (n % 512)) =
    slot d s.mem root n := rfl

/-- Without allocation the walk changes nothing. -/
theorem virtWalk_false (hi : i ≤ 3) (ht : walkTable d s.mem root (pageNumber virt) i = some t) :
    virtWalk d virt false user i t s =
      (slot d s.mem root (pageNumber virt)).map fun p => (some p, s) := by
  induction i generalizing t with
  | zero =>
      rw [← walkTable_zero, ht, virtWalk, pagingIndex_eq virt (by omega)]
      simp
  | succ i ih =>
      have hidx := pagingIndex_eq virt hi
      have hw := walkTable_succ d s.mem root (pageNumber virt) (show i < 3 by omega)
      rw [ht, Option.bind_some] at hw
      simp only [virtWalk, hidx, Option.bind_eq_bind]
      cases hnext : nextTable d s.mem t (pageNumber virt / 512 ^ (i + 1) % 512) with
      | none =>
          -- the rest of the walk is missing, too
          have hnone : ∀ j ≤ i, walkTable d s.mem root (pageNumber virt) (i - j) = none := by
            intro j hj
            induction j with
            | zero => rw [Nat.sub_zero, hw, hnext]
            | succ j ihj =>
                have := walkTable_succ d s.mem root (pageNumber virt)
                  (show i - (j + 1) < 3 by omega)
                rw [this, show i - (j + 1) + 1 = i - j by omega, ihj (by omega), Option.bind_none]
          have h0 := hnone i le_rfl
          rw [Nat.sub_self] at h0
          rw [nextLevel_absent hnext, ← walkTable_zero, h0]
          rfl
      | some t' =>
          rw [nextLevel_present false hnext, Option.bind_some]
          exact ih (by omega) (hw.trans hnext)

theorem walkTable_top (n : ℕ) : walkTable d s.mem root n 3 = some root := rfl

/-- `virt_get_pte` where the tables must be there returns the slot. -/
theorem virtFindPte_eq (virt : ℕ) : virtFindPte d root s virt =
    (slot d s.mem root (pageNumber virt)).map fun p => (p, s) := by
  rw [virtFindPte, virtGetPte, show PAGE_TABLE_LEVELS - 1 = 3 from rfl,
    virtWalk_false le_rfl (walkTable_top _)]
  cases slot d s.mem root (pageNumber virt) <;> rfl

/-- What the allocation of tables may change. -/
structure Grown (d : DirectMap) (root : ℕ) (s s' : Phys) (fl' : FreeLists)
    (live live' : Set Block) (M : Set ℕ) (early : ℕ) (others : Set Block) (boot : Set ℕ) :
    Prop where
  ok : VirtOk d root s' fl' live' M early others boot
  live : live ⊆ live'
  leaf : ∀ n < 2 ^ 36, leafEntry d s'.mem root n = leafEntry d s.mem root n
  table : ∀ i ≤ 3, ∀ k < 512 ^ i, ∀ t, tableAt (nextTable d s.mem) root 512 i k = some t →
    tableAt (nextTable d s'.mem) root 512 i k = some t
  acct : ∃ c ≤ s.acct.available, s'.acct = { s.acct with
    available := s.acct.available - c, committed := s.acct.committed + c }
  count : s'.acct.committed + (tables d s.mem root).ncard =
    s.acct.committed + (tables d s'.mem root).ncard
  content : ∀ b ∈ others, ∀ a ∈ b.cells, s'.mem a = s.mem a
  outside : ∀ a ∉ d.range, (∀ l < 16, a ≠ d.head l) → s'.mem a = s.mem a

namespace Grown

theorem refl (h : VirtOk d root s fl live M early others boot) :
    Grown d root s s fl live live M early others boot :=
  ⟨h, subset_rfl, fun _ _ => rfl, fun _ _ _ _ _ ht => ht, ⟨0, Nat.zero_le _, rfl⟩, rfl,
    fun _ _ _ _ => rfl, fun _ _ _ => rfl⟩

theorem trans {s'' : Phys} {fl'' : FreeLists} {live'' : Set Block}
    (h : Grown d root s s' fl' live live' M early others boot)
    (h' : Grown d root s' s'' fl'' live' live'' M early others boot) :
    Grown d root s s'' fl'' live live'' M early others boot where
  ok := h'.ok
  live := h.live.trans h'.live
  leaf := fun n hn => (h'.leaf n hn).trans (h.leaf n hn)
  table := fun i hi k hk t ht => h'.table i hi k hk t (h.table i hi k hk t ht)
  acct := by
    obtain ⟨c, hc, e⟩ := h.acct
    obtain ⟨c', hc', e'⟩ := h'.acct
    rw [e] at hc' e'
    simp only at hc' e'
    exact ⟨c + c', by omega, by rw [e', Nat.sub_sub, Nat.add_assoc]⟩
  count := by
    have h1 := h.count
    have h2 := h'.count
    omega
  content := fun b hb a ha => (h'.content b hb a ha).trans (h.content b hb a ha)
  outside := fun a ha hh => (h'.outside a ha hh).trans (h.outside a ha hh)

theorem walkTable (h : Grown d root s s' fl' live live' M early others boot) (hn : n < 2 ^ 36)
    (hi : i ≤ 3) (ht : walkTable d s.mem root n i = some t) :
    Phys.walkTable d s'.mem root n i = some t :=
  h.table (3 - i) (by omega) _ (walkKey_lt hn hi) t ht

theorem slot (h : Grown d root s s' fl' live live' M early others boot) (hn : n < 2 ^ 36)
    (hs : slot d s.mem root n = some p) : Tomato.slot d s'.mem root n = some p := by
  obtain ⟨t, ht, rfl⟩ := slot_eq_some hs
  rw [Tomato.slot, h.table 3 le_rfl _ (pageNumber_div_lt hn) t ht]
  rfl

end Grown

/-- The entry that `virt_get_next_level` makes for a new table. -/
theorem newEntry_spec (hk : d.pageCount * 4096 ≤ 2 ^ 52) {x : ℕ} (hx : 4096 ∣ x)
    (hr : pageCells x ⊆ d.range) {flags : ℕ} (hp : flags &&& IA32_PG_P ≠ 0)
    (hf : flags &&& PAGING_4K_ADDRESS_MASK = 0) :
    (d.directToPhys x ||| flags) &&& IA32_PG_P ≠ 0 ∧
      d.physToDirect ((d.directToPhys x ||| flags) &&& PAGING_4K_ADDRESS_MASK) = x := by
  have hxr : x ∈ d.range := hr (by simp [pageCells])
  simp only [DirectMap.range, Set.mem_Ico] at hxr
  have hbase : 4096 ∣ d.base := (by decide : (4096 : ℕ) ∣ 2 ^ 21).trans d.base_aligned
  refine ⟨or_and_present hp, ?_⟩
  rw [DirectMap.directToPhys, or_and_addressMask (Nat.dvd_sub hx hbase) (by omega) hf]
  simp only [DirectMap.physToDirect]
  omega

theorem getLevelBySize_pageSize : getLevelBySize PAGE_SIZE = some 6 :=
  (getPageLevelBySize_eq_some getPageLevelBySize_pageSize).1

namespace VirtOk

variable {x : ℕ}

/-- The memory of the other clients is not free memory. -/
theorem other_notMem_free (h : VirtOk d root s fl live M early others boot) {b : Block}
    (hb : b ∈ others) {a : ℕ} (ha : a ∈ b.cells) :
    a ∉ freeCells fl ∧ ∀ l < 16, a ≠ d.head l := by
  have hbl : b ∈ freeBlocks fl ∪ live ∪ ∅ := Or.inl (Or.inr (h.others_live hb))
  refine ⟨fun hf => ?_, fun l hl he => ?_⟩
  · obtain ⟨l, q, hq, hqa⟩ := mem_freeCells.mp hf
    refine h.ok.inv.free_ne hq (Or.inl (h.others_live hb)) ?_
    exact h.ok.inv.tiling.eq_of_mem (Inv.mem_all_of_free hq) hbl hqa ha
  · exact h.ok.inv.head_ne hl hbl ha he.symm

/-- A page is allocated by one of the functions of the page table. -/
theorem allocPage (h : VirtOk d root s fl live M early others boot) {pages : ℕ}
    (ha : Allocated d s s' fl fl' live M x 6 pages)
    (ho : s'.Ok d fl' (live ∪ {block x 6}) M early) :
    VirtOk d root s' fl' (live ∪ {block x 6}) M early others boot ∧
      (∀ t, IsTable d s.mem root t → ∀ a ∈ pageCells t, s'.mem a = s.mem a) ∧
      block x 6 ∈ (live ∪ {block x 6}) \ others ∧ pageCells x ⊆ d.range ∧ 4096 ∣ x ∧
      ¬ IsTable d s.mem root x ∧
      ∀ n < 2 ^ 36, n ∉ boot → leafEntry d s.mem root n ≠ 0 →
        frameOf d (leafEntry d s.mem root n) ≠ x := by
  have hmem : ∀ t, IsTable d s.mem root t → ∀ a ∈ pageCells t, s'.mem a = s.mem a :=
    fun t ht => h.table_frame ht ha.frame (h.table_notMem_free ht)
  refine ⟨h.transport ho hmem (h.others_live.trans Set.subset_union_left)
      (fun t _ ht => ⟨Or.inl ht.1, ht.2⟩) subset_rfl
      fun n hn hb hne => ⟨Or.inl (h.frame n hn hb hne).1.1, (h.frame n hn hb hne).1.2⟩, hmem,
    ⟨Or.inr rfl, fun hc => ha.fresh (h.others_live hc)⟩,
    ha.cells.trans (h.ok.inv.freeCells_subset.trans h.ok.inv.range),
    ha.inv.tiling.aligned (block x 6) (Or.inl (Or.inr (Or.inr rfl))), fun ht => ?_,
    fun n hn hb hne he => ?_⟩
  · have hx : x ∈ pageCells x := by simp [pageCells]
    exact Set.disjoint_left.mp (h.table_notMem_free ht) hx (ha.cells hx)
  · have := (h.frame n hn hb hne).1.1
    rw [he] at this
    exact ha.fresh this

/-- A missing table is made, or there is no page for it. -/
theorem nextLevel_alloc (h : VirtOk d root s fl live M early others boot) (user : Bool) (hi : i < 3)
    (hk : k < 512 ^ i) (hj : j < 512) (ht : tableAt (nextTable d s.mem) root 512 i k = some t)
    (hnone : nextTable d s.mem t j = none) :
    virtGetNextLevel d s (entryPtr t j) true user = some (none, s) ∨
      ∃ x s' fl', virtGetNextLevel d s (entryPtr t j) true user = some (some x, s') ∧
        Grown d root s s' fl' live (live ∪ {block x 6}) M early others boot ∧
        tableAt (nextTable d s'.mem) root 512 (i + 1) (k * 512 + j) = some x := by
  have hp : s.mem (entryPtr t j) &&& IA32_PG_P = 0 := by
    by_contra hp
    simp [nextTable, hp] at hnone
  have htab : IsTable d s.mem root t := ⟨i, hi.le, k, hk, ht⟩
  rcases h.ok.physAlloc PAGE_SIZE with e | ⟨level, x, s1, fl1, pages, hl, e, ha, ho, hle, hacct⟩
  · exact Or.inl (by simp [virtGetNextLevel, hp, e])
  obtain rfl : 6 = level := Option.some.inj (getLevelBySize_pageSize.symm.trans hl)
  obtain rfl : pages = 1 := ha.pages le_rfl
  obtain ⟨h1, hmem, hx, hxr, hxd, hfresh, hframe⟩ := h.allocPage ha ho
  obtain ⟨htab1, -, hleaf1⟩ := h.tables.frame hmem
  obtain ⟨v, hv⟩ : ∃ v, v = d.directToPhys x |||
      (IA32_PG_P ||| IA32_PG_RW ||| if user then IA32_PG_U else 0) := ⟨_, rfl⟩
  have hflags : (IA32_PG_P ||| IA32_PG_RW ||| if user then IA32_PG_U else 0) &&& IA32_PG_P ≠ 0 ∧
      (IA32_PG_P ||| IA32_PG_RW ||| if user then IA32_PG_U else 0) &&&
        PAGING_4K_ADDRESS_MASK = 0 := by
    cases user <;> decide
  obtain ⟨hvp, hvx⟩ := newEntry_spec h.physBits hxd hxr hflags.1 hflags.2
  rw [← hv] at hvp hvx
  have hsame : s1.mem (entryPtr t j) = s.mem (entryPtr t j) :=
    hmem t htab _ (entryPtr_mem_pageCells hj)
  have hins : TablesOk.Insert d s1.mem root i k j t x v :=
    { level := hi
      key := hk
      index := hj
      table := (htab1 i hi.le k hk).trans ht
      empty := by simpa only [nextTable, hsame] using hnone
      aligned := hxd
      range := hxr
      fresh := by
        rintro ⟨i', hi', k', hk', ht'⟩
        exact hfresh ⟨i', hi', k', hk', htab1 i' hi' k' hk' ▸ ht'⟩
      zero := ha.zero
      present := hvp
      address := hvx }
  refine Or.inr ⟨x, s1.setEntry (entryPtr t j) v, fl1, ?_, ⟨?_, Set.subset_union_left, ?_, ?_, ?_,
    ?_, ?_, ?_⟩, ?_⟩
  · have hor : (if user then d.directToPhys x ||| IA32_PG_P ||| IA32_PG_RW ||| IA32_PG_U
        else d.directToPhys x ||| IA32_PG_P ||| IA32_PG_RW) = v := by
      rw [hv]
      cases user <;> simp [Nat.or_assoc]
    simp only [virtGetNextLevel, hp, e, hor, hsame, Option.bind_eq_bind, Option.bind_some, if_true,
      Bool.not_true, Bool.false_eq_true, if_false, hvp, hvx]
  · exact h1.insertTable hins hx fun n hn hb hne => by
      rw [hleaf1 n hn] at hne ⊢
      exact hframe n hn hb hne
  · exact fun n hn => (hins.leafEntry_eq h1.tables hn).trans (hleaf1 n hn)
  · exact fun i' hi' k' hk' u hu =>
      hins.tableAt_of_some h1.tables hi' hk' ((htab1 i' hi' k' hk').trans hu)
  · exact ⟨1, hle, hacct⟩
  · have hcommitted : (s1.setEntry (entryPtr t j) v).acct.committed = s.acct.committed + 1 :=
      congrArg Accounting.committed hacct
    have hcount : (Tomato.tables d (s1.setEntry (entryPtr t j) v).mem root).ncard =
        (Tomato.tables d s1.mem root).ncard + 1 := hins.ncard_tables h1.tables
    rw [TablesOk.tables_eq htab1] at hcount
    omega
  · intro b hb a hab
    have hne : a ≠ entryPtr t j := by
      rintro rfl
      exact Set.disjoint_left.mp (h.table_notMem_other htab hb) (entryPtr_mem_pageCells hj) hab
    obtain ⟨hf, hh⟩ := h.other_notMem_free hb hab
    exact (Memory.store_of_ne _ _ hne).trans (ha.frame a hf hh)
  · intro a har hh
    have hne : a ≠ entryPtr t j := by
      rintro rfl
      exact har (h.tables.range t htab (entryPtr_mem_pageCells hj))
    exact (Memory.store_of_ne _ _ hne).trans (ha.frame a
      (fun hf => har (h.ok.inv.range (h.ok.inv.freeCells_subset hf))) hh)
  · have hnew : k * 512 + j < 512 ^ (i + 1) := append_lt_pow hk hj
    exact (hins.tableAt_eq h1.tables hi hnew).trans (if_pos ⟨rfl, rfl⟩)

/-- With allocation the walk returns the slot, or there is no page for a table. -/
theorem virtWalk_alloc (h : VirtOk d root s fl live M early others boot) (hi : i ≤ 3)
    (ht : walkTable d s.mem root (pageNumber virt) i = some t) :
    ∃ r s' fl' live', virtWalk d virt true user i t s = some (r, s') ∧
      Grown d root s s' fl' live live' M early others boot ∧
      ∀ p, r = some p → slot d s'.mem root (pageNumber virt) = some p := by
  induction i generalizing s fl live t with
  | zero =>
      refine ⟨_, s, fl, live, rfl, .refl h, ?_⟩
      rintro p he
      rw [← walkTable_zero, ht, ← Option.some.inj he, pagingIndex_eq virt (by omega)]
      simp
  | succ i ih =>
      have hn := pageNumber_lt virt
      have hidx := pagingIndex_eq virt hi
      have hj : pageNumber virt / 512 ^ (i + 1) % 512 < 512 := Nat.mod_lt _ (by decide)
      have hw := walkTable_succ d s.mem root (pageNumber virt) (show i < 3 by omega)
      rw [ht, Option.bind_some] at hw
      simp only [virtWalk, hidx, Option.bind_eq_bind]
      cases hnext : nextTable d s.mem t (pageNumber virt / 512 ^ (i + 1) % 512) with
      | some t' =>
          rw [nextLevel_present true hnext, Option.bind_some]
          exact ih h (by omega) (hw.trans hnext)
      | none =>
          have hkey : pageNumber virt / 512 ^ (i + 1) =
              pageNumber virt / 512 ^ (i + 1 + 1) * 512 + pageNumber virt / 512 ^ (i + 1) % 512 := by
            rw [pow_succ _ (i + 1), ← Nat.div_div_eq_div_mul, Nat.div_add_mod']
          rcases h.nextLevel_alloc user (show 3 - (i + 1) < 3 by omega)
            (walkKey_lt hn hi) hj ht hnext with e | ⟨x, s1, fl1, e, hg, hx⟩
          · rw [e]
            exact ⟨none, s, fl, live, rfl, .refl h, by simp⟩
          · rw [← hkey, show 3 - (i + 1) + 1 = 3 - i by omega] at hx
            obtain ⟨r, s', fl', live', e', hg', hr⟩ := ih hg.ok (by omega) hx
            exact ⟨r, s', fl', live', by rw [e]; exact e', hg.trans hg', hr⟩

/-- `virt_get_pte` with allocation. -/
theorem virtGetPte_alloc (h : VirtOk d root s fl live M early others boot) (virt : ℕ) :
    ∃ r s' fl' live', virtGetPte d root s virt true = some (r, s') ∧
      Grown d root s s' fl' live live' M early others boot ∧
      ∀ p, r = some p → slot d s'.mem root (pageNumber virt) = some p :=
  h.virtWalk_alloc le_rfl (walkTable_top _)

end VirtOk

end Phys

end Tomato
