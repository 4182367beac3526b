import Tomato.Mem.Virt.Walkers

/-!
# Tables that only grow

What a step of one core may do to the page table and to the pages of the other cores: a table
stays where it is, an entry of the upper levels changes only from one that is not present to
one that is, and the contents of a page that is held stay.
-/

namespace Tomato

open Blocks Radix

theorem newTableEntry_eq (d : DirectMap) (phys : ℕ) (user : Bool) : newTableEntry d phys user = d.directToPhys phys |||
    (IA32_PG_P ||| IA32_PG_RW ||| if user then IA32_PG_U else 0) := by
  cases user <;> simp [newTableEntry, Nat.or_assoc]

/-- The tables of `m` are tables of `m'`, and their entries are set at most once. -/
structure TablesGrow (d : DirectMap) (root : ℕ) (m m' : Memory) : Prop where
  table : ∀ i ≤ 3, ∀ k < 512 ^ i, ∀ t, tableAt (nextTable d m) root 512 i k = some t →
    tableAt (nextTable d m') root 512 i k = some t
  entry : ∀ i < 3, ∀ k < 512 ^ i, ∀ t, tableAt (nextTable d m) root 512 i k = some t →
    ∀ j < 512, m' (entryPtr t j) = m (entryPtr t j) ∨
      m (entryPtr t j) &&& IA32_PG_P = 0 ∧ m' (entryPtr t j) &&& IA32_PG_P ≠ 0

namespace TablesGrow

variable {d : DirectMap} {root i j k n p t v x : ℕ} {m m' m'' : Memory}

theorem refl (m : Memory) : TablesGrow d root m m :=
  ⟨fun _ _ _ _ _ ht => ht, fun _ _ _ _ _ _ _ _ => Or.inl rfl⟩

theorem trans (h : TablesGrow d root m m') (h' : TablesGrow d root m' m'') :
    TablesGrow d root m m'' := by
  refine ⟨fun i hi k hk t ht => h'.table i hi k hk t (h.table i hi k hk t ht),
    fun i hi k hk t ht j hj => ?_⟩
  have h1 := h.entry i hi k hk t ht j hj
  have h2 := h'.entry i hi k hk t (h.table i hi.le k hk t ht) j hj
  rcases h1 with e1 | ⟨e1, e1'⟩ <;> rcases h2 with e2 | ⟨e2, e2'⟩
  · exact Or.inl (e2.trans e1)
  · exact Or.inr ⟨e1 ▸ e2, e2'⟩
  · exact Or.inr ⟨e1, e2.symm ▸ e1'⟩
  · exact absurd e2 e1'

/-- The tables are not touched. -/
theorem of_frame (h : TablesOk d m root)
    (hm : ∀ t, IsTable d m root t → ∀ a ∈ pageCells t, m' a = m a) : TablesGrow d root m m' := by
  obtain ⟨htab, -, -⟩ := h.frame hm
  refine ⟨fun i hi k hk t ht => (htab i hi k hk).trans ht, fun i hi k hk t ht j hj => ?_⟩
  exact Or.inl (hm t ⟨i, hi.le, k, hk, ht⟩ _ (entryPtr_mem_pageCells hj))

theorem of_insert (h : TablesOk.Insert d m root i k j t x v) (hm : TablesOk d m root) :
    TablesGrow d root m (m.store (entryPtr t j) v) := by
  refine ⟨fun i hi k hk t ht => h.tableAt_of_some hm hi hk ht, fun i' hi k' hk t' ht j' hj => ?_⟩
  by_cases he : entryPtr t' j' = entryPtr t j
  · have hempty := h.empty
    rw [nextTable, ← he] at hempty
    refine Or.inr ⟨by_contra fun hc => by simp [hc] at hempty, ?_⟩
    rw [he, Memory.store_self]
    exact h.present
  · exact Or.inl (Memory.store_of_ne _ _ he)

theorem slot (h : TablesGrow d root m m') (hn : n < 2 ^ 36) (hs : slot d m root n = some p) :
    Tomato.slot d m' root n = some p := by
  obtain ⟨t, ht, rfl⟩ := slot_eq_some hs
  rw [Tomato.slot, h.table 3 le_rfl _ (pageNumber_div_lt hn) t ht]
  rfl

theorem isTable (h : TablesGrow d root m m') (ht : IsTable d m root t) : IsTable d m' root t := by
  obtain ⟨i, hi, k, hk, ht⟩ := ht
  exact ⟨i, hi, k, hk, h.table i hi k hk t ht⟩

end TablesGrow

/-- What a step of one core leaves to the others. -/
structure WalkStep (d : DirectMap) (root : ℕ) (boot : Set ℕ) (t t' : Clients) : Prop where
  virt : t'.VirtOk d root boot
  grow : TablesGrow d root t.phys.mem t'.phys.mem
  leaf : ∀ n < 2 ^ 36, leafEntry d t'.phys.mem root n = leafEntry d t.phys.mem root n
  content : ∀ b ∈ t.live, b ∈ t'.live → ∀ a ∈ b.cells, t'.phys.mem a = t.phys.mem a

namespace WalkStep

variable {d : DirectMap} {root : ℕ} {boot : Set ℕ} {t : Clients}

theorem refl (h : t.VirtOk d root boot) : WalkStep d root boot t t :=
  ⟨h, .refl _, fun _ _ => rfl, fun _ _ _ _ _ => rfl⟩

end WalkStep

namespace Clients.VirtOk

variable {d : DirectMap} {root i j k p table x : ℕ} {boot : Set ℕ} {t : Clients}

/-- A page is taken. -/
theorem take (h : t.VirtOk d root boot) :
    t.phys.physAlloc d PAGE_SIZE = some (none, t.phys) ∨
      ∃ p s, t.phys.physAlloc d PAGE_SIZE = some (some p, s) ∧
        WalkStep d root boot t (t.handOut PAGE_SIZE (some p, s)) ∧
        (t.handOut PAGE_SIZE (some p, s)).live = block p 6 :: t.live ∧ block p 6 ∉ t.live ∧
        (∀ a ∈ pageCells p, s.mem a = 0) ∧ s.acct.committed = t.phys.acct.committed + 1 ∧
        tables d s.mem root = tables d t.phys.mem root := by
  obtain ⟨hnd, fl, live, h⟩ := h
  rcases h.ok.physAlloc PAGE_SIZE with e | ⟨level, p, s, fl', pages, hl, e, ha, ho, -, hacct⟩
  · exact Or.inl e
  obtain rfl : 6 = level := Option.some.inj (Phys.getLevelBySize_pageSize.symm.trans hl)
  obtain rfl : pages = 1 := ha.pages le_rfl
  have hmem : ∀ t', IsTable d t.phys.mem root t' → ∀ a ∈ pageCells t', s.mem a = t.phys.mem a :=
    fun t' ht => h.table_frame ht ha.frame (h.table_notMem_free ht)
  obtain ⟨hvirt, hsame⟩ := Clients.VirtOk.handOut hnd h hl ha ho
  refine Or.inr ⟨p, s, e, ⟨hvirt, .of_frame h.tables hmem, fun n hn => (hsame n hn).2, ?_⟩, ?_, ?_,
    ha.zero, ?_, ?_⟩
  · intro b hb _ a hab
    obtain ⟨hfree, hhead⟩ := h.other_notMem_free (show b ∈ t.liveSet from hb) hab
    exact ha.frame a hfree hhead
  · simp [Clients.handOut, hl]
  · exact fun hb => ha.fresh (h.others_live hb)
  · rw [hacct]
  · exact TablesOk.tables_eq (h.tables.frame hmem).1

/-- A page is given back. -/
theorem giveBack (h : t.VirtOk d root boot) (hp : block p 6 ∈ t.live) :
    ∃ s, t.phys.physFree d p PAGE_SIZE = some s ∧
      WalkStep d root boot t (t.takeBack p PAGE_SIZE s) ∧
      (t.takeBack p PAGE_SIZE s).live = t.live.erase (block p 6) ∧
      s.acct.committed + 1 = t.phys.acct.committed ∧
      tables d s.mem root = tables d t.phys.mem root := by
  obtain ⟨hnd, fl, live, h⟩ := h
  have hl := Phys.getLevelBySize_pageSize
  have hother : block p 6 ∈ t.liveSet := hp
  obtain ⟨s, fl', pages, e, hr⟩ := h.ok.physFree hl (h.others_live hother)
  obtain rfl : pages = 1 := hr.pages le_rfl
  have hmem : ∀ t', IsTable d t.phys.mem root t' → ∀ a ∈ pageCells t', s.mem a = t.phys.mem a :=
    fun t' ht => h.table_frame ht hr.frame
      (Set.disjoint_union_right.mpr ⟨h.table_notMem_free ht, h.table_notMem_other ht hother⟩)
  obtain ⟨hvirt, hsame⟩ := Clients.VirtOk.takeBack hnd h hl hp hr
  have hlive : (t.takeBack p PAGE_SIZE s).live = t.live.erase (block p 6) := by
    simp [Clients.takeBack, hl]
  refine ⟨s, e, ⟨hvirt, .of_frame h.tables hmem, fun n hn => (hsame n hn).2, ?_⟩, hlive, ?_, ?_⟩
  · intro b hb hb' a hab
    rw [hlive] at hb'
    obtain ⟨hfree, hhead⟩ := h.other_notMem_free (show b ∈ t.liveSet from hb) hab
    refine hr.frame a (fun hc => hc.elim hfree fun hc => ?_) hhead
    have heq := h.ok.inv.tiling.eq_of_mem (Or.inl (Or.inr (h.others_live hb)))
      (Or.inl (Or.inr (h.others_live hother))) hab hc
    exact (hnd.mem_erase_iff.mp hb').1 heq
  · rw [hr.acct]
    have := hr.le
    simp only [Phys.uncommitted, Bool.false_eq_true, if_false]
    omega
  · exact TablesOk.tables_eq (h.tables.frame hmem).1

/-- A page that is held becomes a table. -/
theorem link (h : t.VirtOk d root boot) (user : Bool) (hx : block x 6 ∈ t.live)
    (hzero : ∀ a ∈ pageCells x, t.phys.mem a = 0) (hi : i < 3) (hk : k < 512 ^ i) (hj : j < 512)
    (ht : tableAt (nextTable d t.phys.mem) root 512 i k = some table)
    (hempty : nextTable d t.phys.mem table j = none) :
    ∃ s, s = t.phys.setEntry (entryPtr table j) (newTableEntry d x user) ∧
      WalkStep d root boot t { t with phys := s, live := t.live.erase (block x 6) } ∧
      (tables d s.mem root).ncard = (tables d t.phys.mem root).ncard + 1 ∧
      newTableEntry d x user &&& IA32_PG_P ≠ 0 ∧ nextTable d s.mem table j = some x := by
  refine ⟨_, rfl, ?_⟩
  obtain ⟨hnd, fl, live, h⟩ := h
  have hother : block x 6 ∈ t.liveSet := hx
  have hxl : block x 6 ∈ freeBlocks fl ∪ live ∪ ∅ := Or.inl (Or.inr (h.others_live hother))
  have haligned : 4096 ∣ x := h.ok.inv.tiling.aligned _ hxl
  have hrange : pageCells x ⊆ d.range := (h.ok.inv.tiling.subset hxl).trans h.ok.inv.range
  have hflags : (IA32_PG_P ||| IA32_PG_RW ||| if user then IA32_PG_U else 0) &&& IA32_PG_P ≠ 0 ∧
      (IA32_PG_P ||| IA32_PG_RW ||| if user then IA32_PG_U else 0) &&&
        PAGING_4K_ADDRESS_MASK = 0 := by
    cases user <;> decide
  obtain ⟨hvp, hvx⟩ := Phys.newEntry_spec h.physBits haligned hrange hflags.1 hflags.2
  rw [← newTableEntry_eq] at hvp hvx
  have hins : TablesOk.Insert d t.phys.mem root i k j table x (newTableEntry d x user) :=
    { level := hi
      key := hk
      index := hj
      table := ht
      empty := hempty
      aligned := haligned
      range := hrange
      fresh := fun hx' => Set.disjoint_left.mp (h.table_notMem_other hx' hother)
        (show x ∈ pageCells x by simp [pageCells]) (show x ∈ pageCells x by simp [pageCells])
      zero := hzero
      present := hvp
      address := hvx }
  have hset : {b | b ∈ t.live.erase (block x 6)} = t.liveSet \ {block x 6} := by
    ext b
    exact hnd.mem_erase_iff.trans and_comm
  -- the page is not one of the other clients any more
  have h1 : t.phys.VirtOk d root fl live t.added t.early (t.liveSet \ {block x 6}) boot := by
    have hmono : ∀ b ∈ live \ t.liveSet, b ∈ live \ (t.liveSet \ {block x 6}) :=
      fun b hb => ⟨hb.1, fun hc => hb.2 hc.1⟩
    exact h.transport h.ok (fun _ _ _ _ => rfl) (Set.sdiff_subset.trans h.others_live)
      (fun _ _ hb => hmono _ hb) subset_rfl fun n hn hb hne => hmono _ (h.frame n hn hb hne).1
  refine ⟨⟨⟨hnd.erase _, fl, live, ?_⟩, .of_insert hins h.tables,
    fun n hn => hins.leafEntry_eq h.tables hn, ?_⟩, hins.ncard_tables h.tables, hvp, ?_⟩
  · rw [Clients.liveSet, hset]
    refine h1.insertTable hins ⟨h.others_live hother, fun hc => hc.2 rfl⟩ fun n hn hb hne he => ?_
    exact (h.frame n hn hb hne).1.2 (he ▸ hother)
  · intro b hb _ a hab
    refine Memory.store_of_ne _ _ ?_
    rintro rfl
    exact Set.disjoint_left.mp (h.table_notMem_other hins.isTable (show b ∈ t.liveSet from hb))
      (entryPtr_mem_pageCells hj) hab
  · simp only [nextTable, Phys.setEntry, Memory.store_self, if_neg hvp, hvx]

end Clients.VirtOk

end Tomato
