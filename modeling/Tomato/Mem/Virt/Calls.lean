import Tomato.Mem.Virt.Leaf

/-!
# The functions of the page table

What `virt_reserve_page_tables`, `virt_populate`, `virt_make_global` and `virt_free` do to
the leaf entries.
-/

namespace Tomato

open Blocks Radix

namespace Phys

variable {d : DirectMap} {root : ℕ} {s s' : Phys} {fl : FreeLists} {live others : Set Block}
  {M boot : Set ℕ} {early n p addr base pageCount : ℕ} {globalPage : Bool}

theorem virtFindPte_some (h : virtFindPte d root s addr = some (p, s')) :
    slot d s.mem root (pageNumber addr) = some p ∧ s' = s := by
  rw [virtFindPte_eq, Option.map_eq_some_iff] at h
  obtain ⟨q, hq, he⟩ := h
  obtain ⟨rfl, rfl⟩ := Prod.mk.inj he
  exact ⟨hq, rfl⟩

/-- The leaf entry after `virt_make_global`. -/
def withGlobal (v : ℕ) : ℕ := if v &&& IA32_PG_P ≠ 0 then v ||| IA32_PG_G else v

theorem withGlobal_withGlobal (v : ℕ) : withGlobal (withGlobal v) = withGlobal v := by
  by_cases hp : v &&& IA32_PG_P = 0
  · simp [withGlobal, hp]
  · have hp' : (v ||| IA32_PG_G) &&& IA32_PG_P ≠ 0 := by
      rwa [Nat.and_or_distrib_right, show IA32_PG_G &&& IA32_PG_P = 0 from rfl, Nat.or_zero]
    simp [withGlobal, hp, hp', Nat.or_assoc]

theorem VirtOk.virtMakeGlobal (h : VirtOk d root s fl live M early others boot)
    (he : Phys.virtMakeGlobal d root s base pageCount = some s') :
    ∃ fl' live', Touched d root s s' fl' live' M early others boot (rangeOf base pageCount) ∧
      ∀ n ∈ rangeOf base pageCount,
        leafEntry d s'.mem root n = withGlobal (leafEntry d s.mem root n) := by
  refine forPages_touched (Q := fun _ => True) (R := fun x y => y = withGlobal x) id ?_ ?_ h
    (fun _ _ => trivial) he
  · rintro x _ _ rfl rfl
    exact withGlobal_withGlobal x
  · intro addr x y fl live _ h hxy
    have h : VirtOk d root x fl live M early others boot := h
    obtain ⟨⟨pte, s1⟩, hq, he⟩ := Option.bind_eq_some_iff.mp hxy
    obtain ⟨hs, rfl⟩ := virtFindPte_some hq
    clear hxy
    have hleaf := leafEntry_of_slot hs
    simp only [id, hleaf, withGlobal]
    by_cases hp : s1.mem pte &&& IA32_PG_P = 0
    · simp only [hp, ne_eq, not_true_eq_false, if_false, Option.some.injEq] at he ⊢
      subst he
      exact ⟨fl, live, .refl h _, hleaf⟩
    · simp only [hp, ne_eq, not_false_eq_true, if_true, Option.some.injEq] at he ⊢
      subst he
      refine ⟨fl, live, h.touch_sameFrame (pageNumber_lt addr) hs (fun _ h0 => ?_) ?_⟩
      · simp [h0] at hp
      · rw [Nat.and_or_distrib_right, show IA32_PG_G &&& PAGING_4K_ADDRESS_MASK = 0 from rfl,
          Nat.or_zero]

/-- The loop of `virt_reserve_page_tables` never fails. -/
theorem VirtOk.virtReserveLoop (h : VirtOk d root s fl live M early others boot)
    (base pageCount : ℕ) :
    ∃ ok s' fl' live', Phys.virtReserveLoop d root s base pageCount = some (ok, s') ∧
      Grown d root s s' fl' live live' M early others boot ∧
      (ok = true → ∀ n ∈ rangeOf base pageCount, ∃ p, slot d s'.mem root n = some p) := by
  unfold Phys.virtReserveLoop
  induction pageCount with
  | zero => exact ⟨true, s, fl, live, rfl, .refl h, fun _ n hn => by simp [rangeOf] at hn⟩
  | succ k ih =>
      obtain ⟨ok, s1, fl1, live1, e, hg, hall⟩ := ih
      rw [forPages, e, Option.bind_some]
      cases ok with
      | false => exact ⟨false, s1, fl1, live1, rfl, hg, fun hc => by simp at hc⟩
      | true =>
        obtain ⟨r, s2, fl2, live2, e2, hg2, hr⟩ := hg.ok.virtGetPte_alloc (pageAddr base k)
        refine ⟨r.isSome, s2, fl2, live2, by simp [e2], hg.trans hg2, fun hok n hn => ?_⟩
        rw [rangeOf_succ] at hn
        rcases hn with hn | rfl
        · obtain ⟨p, hp⟩ := hall rfl n hn
          have hlt : n < 2 ^ 36 := by
            obtain ⟨i, -, rfl⟩ := hn
            exact pageNumber_lt _
          exact ⟨p, hg2.slot hlt hp⟩
        · obtain ⟨p, hp⟩ := Option.isSome_iff_exists.mp hok
          exact ⟨p, hr p hp⟩

theorem VirtOk.congr_acct {a : Accounting} (h : VirtOk d root s fl live M early others boot)
    (hok : ({ s with acct := a } : Phys).Ok d fl live M early) :
    VirtOk d root { s with acct := a } fl live M early others boot :=
  ⟨hok, h.kernel, h.tables, h.held, h.others_live, h.frame, h.frame_inj⟩

/-- What `virt_reserve_page_tables` leaves behind: all the leaf entries are as before. -/
structure Reserved (d : DirectMap) (root : ℕ) (s s' : Phys) (live live' : Set Block)
    (others : Set Block) (M : Set ℕ) (early : ℕ) (boot : Set ℕ) : Prop where
  ok : ∃ fl', VirtOk d root s' fl' live' M early others boot
  live : live ⊆ live'
  leaf : ∀ n < 2 ^ 36, leafEntry d s'.mem root n = leafEntry d s.mem root n
  table : ∀ i ≤ 3, ∀ k < 512 ^ i, ∀ t, tableAt (nextTable d s.mem) root 512 i k = some t →
    tableAt (nextTable d s'.mem) root 512 i k = some t
  count : s'.acct.committed + (tables d s.mem root).ncard =
    s.acct.committed + (tables d s'.mem root).ncard
  content : ∀ b ∈ others, ∀ a ∈ b.cells, s'.mem a = s.mem a
  outside : ∀ a ∉ d.range, (∀ l < 16, a ≠ d.head l) → s'.mem a = s.mem a

/-- The pages of new tables are taken from the available ones. -/
def tabled (a : Accounting) (c : ℕ) : Accounting :=
  { a with available := a.available - c, committed := a.committed + c }

/-- `virt_reserve_page_tables` never fails an assertion. If it returns an error, then nothing is
reserved. -/
theorem VirtOk.virtReservePageTables (h : VirtOk d root s fl live M early others boot)
    (base pageCount : ℕ) :
    ∃ r s' live', Phys.virtReservePageTables d root s base pageCount = some (r, s') ∧
      Reserved d root s s' live live' others M early boot ∧
      (r = .ok () → (∃ c, c + pageCount ≤ s.acct.available ∧ s'.acct = tabled { s.acct with
          available := s.acct.available - pageCount
          reserved := s.acct.reserved + pageCount } c) ∧
        ∀ n ∈ rangeOf base pageCount, ∃ p, slot d s'.mem root n = some p) ∧
      ∀ e, r = .error e → e = .outOfResources ∧
        ∃ c ≤ s.acct.available, s'.acct = tabled s.acct c := by
  unfold Phys.virtReservePageTables
  cases hres : s.acct.memAcctReserve pageCount with
  | mk r a =>
    cases r with
    | error e =>
        obtain ⟨-, rfl, rfl⟩ := Accounting.memAcctReserve_error hres
        exact ⟨_, s, live, rfl, ⟨⟨fl, h⟩, subset_rfl, fun _ _ => rfl, fun _ _ _ _ _ ht => ht, rfl,
          fun _ _ _ _ => rfl, fun _ _ _ => rfl⟩, by simp, fun e he =>
            ⟨by simpa using he.symm, 0, Nat.zero_le _, rfl⟩⟩
    | ok u =>
        obtain ⟨hle, ha⟩ := Accounting.memAcctReserve_ok hres
        have h1 : VirtOk d root { s with acct := a } fl live M early others boot := by
          have hok := h.ok.memAcctReserve pageCount
          rw [hres] at hok
          exact h.congr_acct hok
        obtain ⟨ok, s2, fl2, live2, e, hg, hall⟩ := h1.virtReserveLoop base pageCount
        obtain ⟨c, hc, hacct⟩ := hg.acct
        have hcount : s2.acct.committed + (Tomato.tables d s.mem root).ncard =
            s.acct.committed + (Tomato.tables d s2.mem root).ncard := by
          have h2 := hg.count
          rw [ha] at h2
          exact h2
        have hc' : c ≤ s.acct.available - pageCount := by
          rw [ha] at hc
          exact hc
        cases ok with
        | true =>
            refine ⟨.ok (), s2, live2, by simp [e], ⟨⟨fl2, hg.ok⟩, hg.live, hg.leaf, hg.table,
              hcount, hg.content, hg.outside⟩, fun _ => ⟨⟨c, by omega, ?_⟩, hall rfl⟩, by simp⟩
            rw [hacct, ha, tabled]
        | false =>
            have hreserved : s2.acct.reserved = s.acct.reserved + pageCount := by
              rw [hacct, ha]
            obtain ⟨a', hun⟩ : ∃ a', s2.acct.memAcctUnreserve pageCount = some a' :=
              ⟨_, Accounting.memAcctUnreserve_eq_some.mpr ⟨by omega, rfl⟩⟩
            refine ⟨.error .outOfResources, { s2 with acct := a' }, live2, by simp [e, hun],
              ⟨⟨fl2, hg.ok.congr_acct (hg.ok.ok.memAcctUnreserve hun)⟩, hg.live, hg.leaf, hg.table,
                ?_, hg.content, hg.outside⟩, by simp, ?_⟩
            · rw [(Accounting.memAcctUnreserve_eq_some.mp hun).2]
              exact hcount
            rintro _ he
            refine ⟨by simpa using he.symm, c, by omega, ?_⟩
            change a' = _
            rw [(Accounting.memAcctUnreserve_eq_some.mp hun).2, hacct, ha, tabled]
            simp only [Nat.add_sub_cancel]
            congr 1
            omega

theorem Touched.mono {fl' : FreeLists} {live' W W' : Set _}
    (h : Touched d root s s' fl' live' M early others boot W) (hW : W ⊆ W') :
    Touched d root s s' fl' live' M early others boot W' :=
  ⟨h.ok, fun n hn hw => h.leaf n hn fun hc => hw (hW hc), h.table, h.content, h.outside⟩

/-- The allocation of a page touches no leaf entry. -/
theorem VirtOk.allocPage_touched {fl' : FreeLists} {x pages : ℕ}
    (h : VirtOk d root s fl live M early others boot)
    (ha : Allocated d s s' fl fl' live M x 6 pages)
    (ho : s'.Ok d fl' (live ∪ {block x 6}) M early) :
    Touched d root s s' fl' (live ∪ {block x 6}) M early others boot ∅ := by
  obtain ⟨h1, hmem, -⟩ := h.allocPage ha ho
  obtain ⟨htab, -, hleaf⟩ := h.tables.frame hmem
  refine ⟨h1, fun n hn _ => hleaf n hn, htab, fun b hb a hab => ?_, fun a har hh => ?_⟩
  · obtain ⟨hf, hh⟩ := h.other_notMem_free hb hab
    exact ha.frame a hf hh
  · exact ha.frame a (fun hf => har (h.ok.inv.range (h.ok.inv.freeCells_subset hf))) hh

theorem populatedEntry_eq (phys : ℕ) (globalPage user : Bool) :
    populatedEntry phys globalPage user = phys ||| (IA32_PG_P ||| IA32_PG_A ||| (IA32_PG_RW |||
      IA32_PG_D) ||| IA32_PG_NX ||| (if globalPage then IA32_PG_G else 0) |||
      if user then IA32_PG_U else 0) := by
  cases globalPage <;> cases user <;> simp [populatedEntry, Nat.or_assoc]

/-- What `virt_populate` does to a leaf entry. -/
def Populated (d : DirectMap) (globalPage user : Bool) (v v' : ℕ) : Prop :=
  (v &&& IA32_PG_P ≠ 0 ∧ v' = v) ∨ (v &&& IA32_PG_P = 0 ∧ v' &&& IA32_PG_P ≠ 0 ∧
    ∃ x ∈ d.range, 4096 ∣ x ∧ frameOf d v' = x ∧
      v' = populatedEntry (d.directToPhys x) globalPage user)

/-- A page without an entry gets a frame from the reservation. -/
theorem VirtOk.populatePage (h : VirtOk d root s fl live M early others boot)
    (hs : slot d s.mem root (pageNumber addr) = some p) (hp : s.mem p &&& IA32_PG_P = 0)
    (hres : 1 ≤ s.acct.reserved) (globalPage user : Bool) :
    ∃ x s2 fl', physAllocReserved d s PAGE_SIZE = some (some x, s2) ∧
      Touched d root s (s2.setEntry p (populatedEntry (d.directToPhys x) globalPage user)) fl'
        (live ∪ {block x 6}) M early others boot {pageNumber addr} ∧
      block x 6 ∉ live ∧
      Populated d globalPage user (leafEntry d s.mem root (pageNumber addr)) (leafEntry d
        (s2.setEntry p (populatedEntry (d.directToPhys x) globalPage user)).mem root
        (pageNumber addr)) ∧
      s2.acct = { s.acct with
        reserved := s.acct.reserved - 1, committed := s.acct.committed + 1 } := by
  obtain ⟨x, s2, fl', e, ha, ho, hacct⟩ := h.ok.physAllocReserved_page hres
  obtain ⟨h1, hmem, hx, hxr, hxd, hfresh, hframe⟩ := h.allocPage ha ho
  have ht := h.allocPage_touched ha ho
  have hn := pageNumber_lt addr
  obtain ⟨flags, hflags⟩ : ∃ flags, flags = IA32_PG_P ||| IA32_PG_A |||
      (IA32_PG_RW ||| IA32_PG_D) ||| IA32_PG_NX ||| (if globalPage then IA32_PG_G else 0) |||
      if user then IA32_PG_U else 0 := ⟨_, rfl⟩
  have hfp : flags &&& IA32_PG_P ≠ 0 ∧ flags &&& PAGING_4K_ADDRESS_MASK = 0 := by
    rw [hflags]
    cases globalPage <;> cases user <;> decide
  obtain ⟨hvp, hvx⟩ := newEntry_spec h.physBits hxd hxr hfp.1 hfp.2
  rw [hflags, ← populatedEntry_eq] at hvp hvx
  have hfx : frameOf d (populatedEntry (d.directToPhys x) globalPage user) = x := hvx
  obtain ⟨ht2, hself⟩ := (h1.mono_boot (Set.subset_insert (pageNumber addr) boot)).touch
    (v := populatedEntry (d.directToPhys x) globalPage user) hn ((ht.slot hn).trans hs)
    fun hb _ => by
      rw [hfx]
      refine ⟨hx, ?_, fun n' hn' hb' hne => ?_⟩
      · rintro ⟨i, hi, k, hk, hxt⟩
        exact hfresh ⟨i, hi, k, hk, ht.table i hi k hk ▸ hxt⟩
      · rw [ht.leaf n' hn' (Set.notMem_empty n')] at hne ⊢
        exact hframe n' hn' (fun hc => hb' (Set.mem_insert_of_mem _ hc)) hne
  refine ⟨x, s2, fl', e, (ht.trans ht2).mono (by simp), ha.fresh, Or.inr ⟨?_, ?_, x, ?_, hxd, ?_,
    hself⟩, hacct⟩
  · rwa [leafEntry_of_slot hs]
  · rwa [hself]
  · exact hxr (by simp [pageCells])
  · rw [hself, hfx]

theorem VirtOk.virtPopulate (h : VirtOk d root s fl live M early others boot)
    (he : Phys.virtPopulate d root s base pageCount globalPage = some s') :
    ∃ fl' live', Touched d root s s' fl' live' M early others boot (rangeOf base pageCount) ∧
      ∀ n ∈ rangeOf base pageCount, Populated d globalPage (virtIsUserAddress base)
        (leafEntry d s.mem root n) (leafEntry d s'.mem root n) := by
  refine forPages_touched (Q := fun _ => True) id ?_ ?_ h (fun _ _ => trivial) he
  · rintro x y z (⟨hx, rfl⟩ | ⟨hx, hy, hv⟩) hyz
    · exact hyz
    · rcases hyz with ⟨-, rfl⟩ | ⟨hy', -⟩
      · exact Or.inr ⟨hx, hy, hv⟩
      · exact absurd hy' hy
  · intro addr x y fl live _ h hxy
    have h : VirtOk d root x fl live M early others boot := h
    obtain ⟨⟨pte, s1⟩, hq, he⟩ := Option.bind_eq_some_iff.mp hxy
    obtain ⟨hs, rfl⟩ := virtFindPte_some hq
    clear hxy
    by_cases hp : s1.mem pte &&& IA32_PG_P = 0
    swap
    · simp only [hp, ne_eq, not_false_eq_true, if_true, Option.some.injEq] at he
      subst he
      have hleaf := leafEntry_of_slot hs
      simp only [id, hleaf]
      exact ⟨fl, live, .refl h _, Or.inl ⟨hp, rfl⟩⟩
    simp only [hp, ne_eq, not_true_eq_false, if_false, Option.bind_eq_bind] at he
    obtain ⟨⟨r, s2⟩, halloc, he⟩ := Option.bind_eq_some_iff.mp he
    obtain ⟨x, rfl, he⟩ := Option.bind_eq_some_iff.mp he
    obtain rfl := Option.some.inj he
    rcases physAllocReserved_cases halloc with hnone | ⟨level, hl, hres⟩
    · simp at hnone
    obtain rfl : 6 = level := Option.some.inj (getPageLevelBySize_pageSize.symm.trans hl)
    obtain ⟨x', s', fl', e, ht, -, hpop, -⟩ :=
      h.populatePage hs hp hres globalPage (virtIsUserAddress base)
    obtain ⟨rfl, rfl⟩ : x = x' ∧ s2 = s' := by simpa using halloc.symm.trans e
    exact ⟨fl', _, ht, hpop⟩

/-- The first loop of `virt_free`. -/
theorem VirtOk.virtInvalidate {count : ℕ} (h : VirtOk d root s fl live M early others boot)
    (he : Phys.virtInvalidate d root s base pageCount = some (count, s')) :
    ∃ fl' live', Touched d root s s' fl' live' M early others boot (rangeOf base pageCount) ∧
      ∀ n ∈ rangeOf base pageCount,
        leafEntry d s'.mem root n = leafEntry d s.mem root n &&& PAGING_4K_ADDRESS_MASK := by
  refine forPages_touched (Q := fun _ => True) (R := fun x y => y = x &&& PAGING_4K_ADDRESS_MASK)
    (y := (count, s')) Prod.snd ?_ ?_ h (fun _ _ => trivial) he
  · rintro x _ _ rfl rfl
    rw [Nat.and_assoc, Nat.and_self]
  · rintro addr ⟨cx, x⟩ ⟨cy, y⟩ fl live _ h hxy
    obtain ⟨⟨pte, s1⟩, hq, he⟩ := Option.bind_eq_some_iff.mp hxy
    obtain ⟨hs, rfl⟩ := virtFindPte_some hq
    clear hxy
    have hleaf := leafEntry_of_slot hs
    simp only [hleaf]
    simp only at he
    split at he
    · simp at he
    split at he
    · obtain ⟨rfl, rfl⟩ := Prod.mk.inj (Option.some.inj he)
      exact ⟨fl, live, h.touch_sameFrame (pageNumber_lt addr) hs
        (fun hne h0 => hne (by rw [h0, Nat.zero_and])) (by rw [Nat.and_assoc, Nat.and_self])⟩
    · rename_i hzero
      obtain ⟨rfl, rfl⟩ := Prod.mk.inj (Option.some.inj he)
      rw [ne_eq, not_not] at hzero
      exact ⟨fl, live, .refl h _, by rw [hleaf, hzero, Nat.zero_and]⟩

/-- A page that is not a boot page is given back to the allocator. -/
theorem VirtOk.releasePage (h : VirtOk d root s fl live M early others boot) (hn : n < 2 ^ 36)
    (hb : n ∉ boot) (hs : slot d s.mem root n = some p) (h0 : s.mem p ≠ 0) :
    ∃ s1 fl1, physFree d s (frameOf d (s.mem p)) PAGE_SIZE = some s1 ∧
      Touched d root s (s1.setEntry p 0) fl1 (live \ {block (frameOf d (s.mem p)) 6}) M early others
        boot {n} ∧
      leafEntry d (s1.setEntry p 0).mem root n = 0 ∧ 1 ≤ s.acct.committed ∧
      s1.acct = uncommitted s.acct 1 false := by
  have hleaf := leafEntry_of_slot hs
  rw [← hleaf] at h0
  obtain ⟨⟨hlive, hother⟩, htable⟩ := h.frame n hn hb h0
  obtain ⟨s1, fl1, pages, e, hr⟩ := h.ok.physFree getLevelBySize_pageSize hlive
  obtain ⟨F, hF⟩ : ∃ F, F = frameOf d (leafEntry d s.mem root n) := ⟨_, rfl⟩
  rw [← hF] at hlive hother htable e hr
  have hsep : ∀ t, IsTable d s.mem root t →
      Disjoint (pageCells t) (freeCells fl ∪ (block F 6).cells) := by
    intro t ht
    refine Set.disjoint_union_right.mpr ⟨h.table_notMem_free ht, ?_⟩
    rcases h.held t ht with hl | hM
    · refine h.ok.inv.tiling.disjoint (Or.inl (Or.inr hl.1)) (Or.inl (Or.inr hlive)) fun he => ?_
      exact htable ((block_inj.mp he).1 ▸ ht)
    · exact hM.mono_right (h.ok.inv.tiling.subset (Or.inl (Or.inr hlive)))
  have hmem : ∀ t, IsTable d s.mem root t → ∀ a ∈ pageCells t, s1.mem a = s.mem a :=
    fun t ht => h.table_frame ht hr.frame (hsep t ht)
  obtain ⟨htab, -, hleaf1⟩ := h.tables.frame hmem
  have h1 : VirtOk d root s1 fl1 (live \ {block F 6}) M early others (insert n boot) := by
    refine h.transport hr.ok hmem (fun b hb => ⟨h.others_live hb, ?_⟩) (fun t ht hl => ?_)
      (Set.subset_insert n boot) fun n' hn' hb' hne => ?_
    · rintro rfl
      exact hother hb
    · refine ⟨⟨hl.1, fun he => htable ?_⟩, hl.2⟩
      exact (block_inj.mp he).1 ▸ ht
    · obtain ⟨⟨h2, h3⟩, -⟩ := h.frame n' hn' (fun hc => hb' (Set.mem_insert_of_mem n hc)) hne
      refine ⟨⟨h2, fun he => hb' ?_⟩, h3⟩
      have := h.frame_inj n' hn' (fun hc => hb' (Set.mem_insert_of_mem n hc)) hne n hn hb h0
        ((block_inj.mp he).1.trans hF)
      exact this ▸ Set.mem_insert n boot
  have hs1 : slot d s1.mem root n = some p := (TablesOk.slot_eq_of_tableAt_eq htab hn).trans hs
  obtain ⟨ht, hself⟩ := h1.touch (v := 0) hn hs1 fun _ hne => absurd rfl hne
  obtain rfl : pages = 1 := hr.pages le_rfl
  refine ⟨s1, fl1, by rw [← hleaf, ← hF, e], ⟨?_, ?_, ?_, ?_, ?_⟩, hself, hr.le, hr.acct⟩
  · rw [← hleaf, ← hF]
    exact ht.ok
  · exact fun n' hn' hne => (ht.leaf n' hn' hne).trans (hleaf1 n' hn')
  · exact fun i hi k hk => (ht.table i hi k hk).trans (htab i hi k hk)
  · intro b hb a ha
    rw [ht.content b hb a ha]
    obtain ⟨hf, hh⟩ := h.other_notMem_free hb ha
    refine hr.frame a (fun hc => hc.elim hf fun hc => hother ?_) hh
    have := h.ok.inv.tiling.eq_of_mem (Or.inl (Or.inr hlive))
      (Or.inl (Or.inr (h.others_live hb))) hc ha
    exact this ▸ hb
  · intro a ha hh
    rw [ht.outside a ha hh]
    refine hr.frame a (fun hc => ha ?_) hh
    rcases hc with hc | hc
    · exact h.ok.inv.range (h.ok.inv.freeCells_subset hc)
    · exact h.ok.inv.range (h.ok.inv.tiling.subset (Or.inl (Or.inr hlive)) hc)

/-- The second loop of `virt_free`. -/
theorem VirtOk.virtRelease (h : VirtOk d root s fl live M early others boot)
    (hb : ∀ n ∈ rangeOf base pageCount, n ∉ boot)
    (he : Phys.virtRelease d root s base pageCount = some s') :
    ∃ fl' live', Touched d root s s' fl' live' M early others boot (rangeOf base pageCount) ∧
      ∀ n ∈ rangeOf base pageCount, leafEntry d s'.mem root n = 0 := by
  refine forPages_touched (R := fun _ y => y = 0) id (fun _ _ _ _ h => h) ?_ h hb he
  intro addr x y fl live hb h hxy
  have h : VirtOk d root x fl live M early others boot := h
  obtain ⟨⟨pte, s1⟩, hq, he⟩ := Option.bind_eq_some_iff.mp hxy
  obtain ⟨hs, rfl⟩ := virtFindPte_some hq
  clear hxy
  have hn := pageNumber_lt addr
  simp only at he
  split at he
  · rename_i h0
    split at he
    · simp at he
    obtain ⟨s2, fl2, e, ht, hself, -⟩ := h.releasePage hn hb hs h0
    obtain ⟨s3, e3, rfl⟩ := Option.map_eq_some_iff.mp he
    obtain rfl : s3 = s2 := Option.some.inj (e3.symm.trans e)
    exact ⟨fl2, _, ht, hself⟩
  · rename_i hzero
    obtain rfl := Option.some.inj he
    rw [ne_eq, not_not] at hzero
    exact ⟨fl, live, .refl h _, (leafEntry_of_slot hs).trans hzero⟩

theorem VirtOk.virtFree (h : VirtOk d root s fl live M early others boot)
    (hb : ∀ n ∈ rangeOf base pageCount, n ∉ boot)
    (he : Phys.virtFree d root s base pageCount = some s') :
    ∃ fl' live', Touched d root s s' fl' live' M early others boot (rangeOf base pageCount) ∧
      ∀ n ∈ rangeOf base pageCount, leafEntry d s'.mem root n = 0 := by
  obtain ⟨⟨count, s1⟩, e1, he⟩ := Option.bind_eq_some_iff.mp he
  obtain ⟨a, ha, he⟩ := Option.bind_eq_some_iff.mp he
  obtain ⟨fl1, live1, ht1, -⟩ := h.virtInvalidate e1
  have h2 : VirtOk d root { s1 with acct := a } fl1 live1 M early others boot :=
    ht1.ok.congr_acct (ht1.ok.ok.memAcctUnreserve ha)
  obtain ⟨fl3, live3, ht3, hzero⟩ := h2.virtRelease hb he
  refine ⟨fl3, live3, ⟨ht3.ok, fun n hn hw => ?_, fun i hi k hk => ?_, fun b hb a ha => ?_,
    fun a ha hh => ?_⟩, hzero⟩
  · exact (ht3.leaf n hn hw).trans (ht1.leaf n hn hw)
  · exact (ht3.table i hi k hk).trans (ht1.table i hi k hk)
  · exact (ht3.content b hb a ha).trans (ht1.content b hb a ha)
  · exact (ht3.outside a ha hh).trans (ht1.outside a ha hh)

end Phys

end Tomato
