import Tomato.Mem.Virt.After

/-!
# The bit for the user in the upper levels

An entry of the upper levels has the bit `IA32_PG_U` if and only if it is on the way to the
pages of the lower half. A table is made on the way to one page, so this stays as long as a
call makes tables for the user in the lower half only. The other calls do not change the
entries of the upper levels.
-/

namespace Tomato

open Blocks Radix Transition Memmap

/-- The entry `j` of the table that the digits of `k` lead to is for pages of the lower half. -/
def LowerEntry (i k j : ℕ) : Prop := k * 512 + j < 256 * 512 ^ i

/-- The entries of the upper levels are for the user in the lower half, and only there. -/
def UserBits (d : DirectMap) (root : ℕ) (m : Memory) : Prop :=
  ∀ i < 3, ∀ k < 512 ^ i, ∀ t, tableAt (nextTable d m) root 512 i k = some t → ∀ j < 512,
    m (entryPtr t j) &&& IA32_PG_P ≠ 0 → (m (entryPtr t j) &&& IA32_PG_U ≠ 0 ↔ LowerEntry i k j)

/-- The tables are the same, and so are the entries of the upper levels. -/
structure SameUpper (d : DirectMap) (root : ℕ) (m m' : Memory) : Prop where
  table : ∀ i ≤ 3, ∀ k < 512 ^ i,
    tableAt (nextTable d m') root 512 i k = tableAt (nextTable d m) root 512 i k
  entry : ∀ i < 3, ∀ k < 512 ^ i, ∀ t, tableAt (nextTable d m) root 512 i k = some t →
    ∀ j < 512, m' (entryPtr t j) = m (entryPtr t j)

section

variable {d : DirectMap} {root i j k n p t v x virt : ℕ} {m m' m'' : Memory}

theorem lowerEntry_iff (hi : i < 3) :
    LowerEntry (3 - (i + 1)) (n / 512 ^ (i + 1 + 1)) (n / 512 ^ (i + 1) % 512) ↔ n < 2 ^ 35 := by
  rw [LowerEntry, pow_succ _ (i + 1), ← Nat.div_div_eq_div_mul, Nat.div_add_mod']
  interval_cases i <;> omega

namespace SameUpper

theorem refl (m : Memory) : SameUpper d root m m := ⟨fun _ _ _ _ => rfl, fun _ _ _ _ _ _ _ _ => rfl⟩

theorem trans (h : SameUpper d root m m') (h' : SameUpper d root m' m'') :
    SameUpper d root m m'' where
  table := fun i hi k hk => (h'.table i hi k hk).trans (h.table i hi k hk)
  entry := fun i hi k hk t ht j hj =>
    (h'.entry i hi k hk t ((h.table i hi.le k hk).trans ht) j hj).trans (h.entry i hi k hk t ht j hj)

/-- The tables are not touched. -/
theorem of_frame (h : TablesOk d m root)
    (hm : ∀ t, IsTable d m root t → ∀ a ∈ pageCells t, m' a = m a) : SameUpper d root m m' :=
  ⟨(h.frame hm).1, fun i hi k hk t ht _ hj =>
    hm t ⟨i, hi.le, k, hk, ht⟩ _ (entryPtr_mem_pageCells hj)⟩

/-- A leaf entry is set. -/
theorem of_store_slot (h : TablesOk d m root) (hn : n < 2 ^ 36) (hs : slot d m root n = some p)
    (v : ℕ) : SameUpper d root m (m.store p v) := by
  refine ⟨(h.store_slot hn hs v).1, fun i hi k hk t ht j hj => Memory.store_of_ne _ _ ?_⟩
  obtain ⟨t', ht', rfl⟩ := slot_eq_some hs
  have hk' := pageNumber_div_lt hn
  intro he
  obtain ⟨rfl, -⟩ := entryPtr_inj (h.aligned t ⟨i, hi.le, k, hk, ht⟩)
    (h.aligned t' ⟨3, le_rfl, _, hk', ht'⟩) hj (Nat.mod_lt _ (by decide)) he
  have := (h.separate i hi.le k hk 3 le_rfl _ hk' t ht ht').1
  omega

theorem slot (h : SameUpper d root m m') (hn : n < 2 ^ 36) :
    Tomato.slot d m' root n = Tomato.slot d m root n := TablesOk.slot_eq_of_tableAt_eq h.table hn

end SameUpper

namespace UserBits

theorem congr (h : UserBits d root m) (hs : SameUpper d root m m') : UserBits d root m' := by
  intro i hi k hk t ht j hj hp
  have ht' := (hs.table i hi.le k hk).symm.trans ht
  rw [hs.entry i hi k hk t ht' j hj] at hp ⊢
  exact h i hi k hk t ht' j hj hp

/-- A table is linked with the bit that its pages need. -/
theorem insert (h : UserBits d root m) (hm : TablesOk d m root)
    (hins : TablesOk.Insert d m root i k j t x v)
    (hv : v &&& IA32_PG_U ≠ 0 ↔ LowerEntry i k j) : UserBits d root (m.store (entryPtr t j) v) := by
  intro i' hi' k' hk' t' ht' j' hj' hp
  rw [hins.tableAt_eq hm hi'.le hk'] at ht'
  split at ht'
  · -- the new table is empty
    obtain rfl := Option.some.inj ht'
    have hne : entryPtr x j' ≠ entryPtr t j := fun he =>
      hins.ne (entryPtr_inj hins.aligned (hm.aligned t hins.isTable) hj' hins.index he).1.symm
    rw [Memory.store_of_ne _ _ hne, hins.zero _ (entryPtr_mem_pageCells hj')] at hp
    simp at hp
  · by_cases he : entryPtr t' j' = entryPtr t j
    · obtain ⟨rfl, rfl⟩ := entryPtr_inj (hm.aligned t' ⟨i', hi'.le, k', hk', ht'⟩)
        (hm.aligned t hins.isTable) hj' hins.index he
      obtain ⟨rfl, rfl⟩ := hm.separate i' hi'.le k' hk' i hins.level.le k hins.key t' ht' hins.table
      rwa [Memory.store_self]
    · rw [Memory.store_of_ne _ _ he] at hp ⊢
      exact h i' hi' k' hk' t' ht' j' hj' hp

/-- A page table without entries. -/
theorem of_empty (h : ∀ j < 512, m (entryPtr root j) = 0) : UserBits d root m := by
  have hempty : ∀ j < 512, nextTable d m root j = none := fun j hj => by simp [nextTable, h j hj]
  intro i hi k hk t ht j hj hp
  cases i with
  | zero =>
    obtain rfl := Option.some.inj ht
    simp [h j hj] at hp
  | succ i => simp [tableAt_of_empty hempty hk] at ht

end UserBits

end

namespace Phys.VirtOk

variable {d : DirectMap} {root : ℕ} {s s' : Phys} {fl : FreeLists} {live others : Set Block}
  {M boot : Set ℕ} {early i j k n p t virt x base pageCount : ℕ} {user : Bool}

/-- The entry for a new table has the bit of its pages. -/
theorem nextLevel_userBits (h : VirtOk d root s fl live M early others boot)
    (hu : UserBits d root s.mem) (hi : i < 3) (hk : k < 512 ^ i) (hj : j < 512)
    (ht : tableAt (nextTable d s.mem) root 512 i k = some t)
    (huser : user = true ↔ LowerEntry i k j)
    (he : virtGetNextLevel d s (entryPtr t j) true user = some (some x, s')) :
    UserBits d root s'.mem := by
  by_cases hp : s.mem (entryPtr t j) &&& IA32_PG_P = 0
  swap
  · simp only [virtGetNextLevel, hp, if_false, Option.some.injEq, Prod.mk.injEq] at he
    exact he.2 ▸ hu
  have htab : IsTable d s.mem root t := ⟨i, hi.le, k, hk, ht⟩
  rcases h.ok.physAlloc PAGE_SIZE with e | ⟨level, y, s1, fl1, pages, hl, e, ha, ho, -, -⟩
  · simp [virtGetNextLevel, hp, e] at he
  obtain rfl : 6 = level := Option.some.inj (getLevelBySize_pageSize.symm.trans hl)
  obtain rfl : pages = 1 := ha.pages le_rfl
  obtain ⟨h1, hmem, -, hxr, hxd, hfresh, -⟩ := h.allocPage ha ho
  have htab1 := (h.tables.frame hmem).1
  obtain ⟨v, hv⟩ : ∃ v, v = d.directToPhys y |||
      (IA32_PG_P ||| IA32_PG_RW ||| if user then IA32_PG_U else 0) := ⟨_, rfl⟩
  have hflags : (IA32_PG_P ||| IA32_PG_RW ||| if user then IA32_PG_U else 0) &&& IA32_PG_P ≠ 0 ∧
      (IA32_PG_P ||| IA32_PG_RW ||| if user then IA32_PG_U else 0) &&&
        PAGING_4K_ADDRESS_MASK = 0 := by
    cases user <;> decide
  obtain ⟨hvp, hvx⟩ := newEntry_spec h.physBits hxd hxr hflags.1 hflags.2
  rw [← hv] at hvp hvx
  have hsame : s1.mem (entryPtr t j) = s.mem (entryPtr t j) :=
    hmem t htab _ (entryPtr_mem_pageCells hj)
  have hins : TablesOk.Insert d s1.mem root i k j t y v :=
    { level := hi
      key := hk
      index := hj
      table := (htab1 i hi.le k hk).trans ht
      empty := by simp [nextTable, hsame, hp]
      aligned := hxd
      range := hxr
      fresh := by
        rintro ⟨i', hi', k', hk', ht'⟩
        exact hfresh ⟨i', hi', k', hk', htab1 i' hi' k' hk' ▸ ht'⟩
      zero := ha.zero
      present := hvp
      address := hvx }
  have hvu : v &&& IA32_PG_U ≠ 0 ↔ LowerEntry i k j := by
    have hdvd : 4096 ∣ d.directToPhys y :=
      Nat.dvd_sub hxd ((by decide : (4096 : ℕ) ∣ 2 ^ 21).trans d.base_aligned)
    have h0 : d.directToPhys y &&& IA32_PG_U = 0 := and_two_pow_of_dvd (i := 2) hdvd (by norm_num)
    rw [hv, Nat.and_or_distrib_right, h0, Nat.zero_or, ← huser]
    cases user <;> decide
  have hor : (if user then d.directToPhys y ||| IA32_PG_P ||| IA32_PG_RW ||| IA32_PG_U
      else d.directToPhys y ||| IA32_PG_P ||| IA32_PG_RW) = v := by
    rw [hv]
    cases user <;> simp [Nat.or_assoc]
  simp only [virtGetNextLevel, hp, e, hor, hsame, Option.bind_eq_bind, Option.bind_some, if_true,
    Bool.not_true, Bool.false_eq_true, if_false, hvp, Option.some.injEq, Prod.mk.injEq] at he
  rw [← he.2]
  exact (hu.congr (.of_frame h.tables hmem)).insert h1.tables hins hvu

theorem virtWalk_userBits {r : Option ℕ} (h : VirtOk d root s fl live M early others boot)
    (hu : UserBits d root s.mem) (hi : i ≤ 3)
    (ht : walkTable d s.mem root (pageNumber virt) i = some t)
    (huser : user = true ↔ pageNumber virt < 2 ^ 35)
    (he : virtWalk d virt true user i t s = some (r, s')) : UserBits d root s'.mem := by
  induction i generalizing s fl live t with
  | zero =>
    obtain ⟨-, rfl⟩ := Prod.mk.inj (Option.some.inj he)
    exact hu
  | succ i ih =>
    have hn := pageNumber_lt virt
    have hj : pageNumber virt / 512 ^ (i + 1) % 512 < 512 := Nat.mod_lt _ (by decide)
    have hw := walkTable_succ d s.mem root (pageNumber virt) (show i < 3 by omega)
    rw [ht, Option.bind_some] at hw
    have hkey : pageNumber virt / 512 ^ (i + 1) =
        pageNumber virt / 512 ^ (i + 1 + 1) * 512 + pageNumber virt / 512 ^ (i + 1) % 512 := by
      rw [pow_succ _ (i + 1), ← Nat.div_div_eq_div_mul, Nat.div_add_mod']
    simp only [virtWalk, pagingIndex_eq virt hi, Option.bind_eq_bind] at he
    obtain ⟨⟨o, s1⟩, e1, he⟩ := Option.bind_eq_some_iff.mp he
    cases hnext : nextTable d s.mem t (pageNumber virt / 512 ^ (i + 1) % 512) with
    | some t' =>
      rw [nextLevel_present true hnext] at e1
      obtain ⟨rfl, rfl⟩ := Prod.mk.inj (Option.some.inj e1)
      exact ih h hu (by omega) (hw.trans hnext) he
    | none =>
      rcases h.nextLevel_alloc user (show 3 - (i + 1) < 3 by omega) (walkKey_lt hn hi) hj ht hnext
        with e | ⟨x, s2, fl2, e, hg, hx⟩
      · obtain ⟨rfl, rfl⟩ := Prod.mk.inj (Option.some.inj (e.symm.trans e1))
        obtain ⟨-, rfl⟩ := Prod.mk.inj (Option.some.inj he)
        exact hu
      · obtain ⟨rfl, rfl⟩ := Prod.mk.inj (Option.some.inj (e.symm.trans e1))
        rw [← hkey, show 3 - (i + 1) + 1 = 3 - i by omega] at hx
        refine ih hg.ok (h.nextLevel_userBits hu (by omega) (walkKey_lt hn hi) hj ht ?_ e) (by omega)
          hx he
        rw [huser, lowerEntry_iff (by omega)]

/-- The tables of a range are made for the user in the lower half. -/
theorem virtReserveLoop_userBits {ok : Bool} (h : VirtOk d root s fl live M early others boot)
    (hu : UserBits d root s.mem) (hhalf : ∀ i < pageCount,
      (virtIsUserAddress (pageAddr base i) = true ↔ pageNumber (pageAddr base i) < 2 ^ 35))
    (he : Phys.virtReserveLoop d root s base pageCount = some (ok, s')) :
    UserBits d root s'.mem := by
  unfold Phys.virtReserveLoop at he
  induction pageCount generalizing ok s' with
  | zero =>
    obtain ⟨-, rfl⟩ := Prod.mk.inj (Option.some.inj he)
    exact hu
  | succ n ih =>
    obtain ⟨⟨ok1, s1⟩, e1, he⟩ := Option.bind_eq_some_iff.mp he
    have h1 := ih (fun i hi => hhalf i (by omega)) e1
    cases ok1 with
    | false =>
      obtain ⟨-, rfl⟩ := Prod.mk.inj (Option.some.inj he)
      exact h1
    | true =>
      obtain ⟨ok2, s2, fl2, live2, e2, hg, -⟩ := h.virtReserveLoop base n
      obtain ⟨-, rfl⟩ := Prod.mk.inj (Option.some.inj (e2.symm.trans e1))
      obtain ⟨⟨r, s3⟩, e3, he⟩ := Option.map_eq_some_iff.mp he
      obtain ⟨-, rfl⟩ := Prod.mk.inj he
      exact hg.ok.virtWalk_userBits h1 le_rfl (walkTable_top _) (hhalf n (by omega)) e3

theorem virtReservePageTables_userBits {r : Except TomatoErr Unit}
    (h : VirtOk d root s fl live M early others boot) (hu : UserBits d root s.mem)
    (hhalf : ∀ i < pageCount,
      (virtIsUserAddress (pageAddr base i) = true ↔ pageNumber (pageAddr base i) < 2 ^ 35))
    (he : Phys.virtReservePageTables d root s base pageCount = some (r, s')) :
    UserBits d root s'.mem := by
  unfold Phys.virtReservePageTables at he
  cases hres : s.acct.memAcctReserve pageCount with
  | mk q a =>
    rw [hres] at he
    cases q with
    | error e =>
      obtain ⟨-, rfl⟩ := Prod.mk.inj (Option.some.inj he)
      exact hu
    | ok u =>
      have h1 : VirtOk d root { s with acct := a } fl live M early others boot := by
        have hok := h.ok.memAcctReserve pageCount
        rw [hres] at hok
        exact h.congr_acct hok
      obtain ⟨⟨ok, s1⟩, e1, he⟩ := Option.bind_eq_some_iff.mp he
      have h2 := h1.virtReserveLoop_userBits hu hhalf e1
      cases ok with
      | true =>
        obtain ⟨-, rfl⟩ := Prod.mk.inj (Option.some.inj he)
        exact h2
      | false =>
        obtain ⟨a', -, he⟩ := Option.bind_eq_some_iff.mp he
        obtain ⟨-, rfl⟩ := Prod.mk.inj (Option.some.inj he)
        exact h2

/-- A loop over a range that changes no entry of the upper levels. -/
theorem forPages_sameUpper {σ : Type*} (π : σ → Phys) {f : ℕ → σ → Option σ} {Q : ℕ → Prop}
    (hstep : ∀ addr x y fl live, Q (pageNumber addr) →
      VirtOk d root (π x) fl live M early others boot → f addr x = some y →
      (∃ fl' live', VirtOk d root (π y) fl' live' M early others boot) ∧
        SameUpper d root (π x).mem (π y).mem)
    {x y : σ} (h : VirtOk d root (π x) fl live M early others boot)
    (hQ : ∀ n ∈ rangeOf base pageCount, Q n) (he : forPages base f pageCount x = some y) :
    (∃ fl' live', VirtOk d root (π y) fl' live' M early others boot) ∧
      SameUpper d root (π x).mem (π y).mem := by
  induction pageCount generalizing y with
  | zero =>
    obtain rfl := Option.some.inj he
    exact ⟨⟨fl, live, h⟩, .refl _⟩
  | succ n ih =>
    rw [rangeOf_succ] at hQ
    obtain ⟨z, hz, he⟩ := Option.bind_eq_some_iff.mp he
    obtain ⟨⟨fl1, live1, h1⟩, hs1⟩ := ih (fun n hn => hQ n (Or.inl hn)) hz
    obtain ⟨h2, hs2⟩ := hstep _ z y fl1 live1 (hQ _ (Or.inr rfl)) h1 he
    exact ⟨h2, hs1.trans hs2⟩

/-- A leaf entry is set, and maps the same frame as before. -/
theorem setEntry_sameUpper (h : VirtOk d root s fl live M early others boot)
    (hn : n < 2 ^ 36) (hs : slot d s.mem root n = some p) (h0 : v ≠ 0 → s.mem p ≠ 0)
    (hv : v &&& PAGING_4K_ADDRESS_MASK = s.mem p &&& PAGING_4K_ADDRESS_MASK) :
    (∃ fl' live', VirtOk d root (s.setEntry p v) fl' live' M early others boot) ∧
      SameUpper d root s.mem (s.setEntry p v).mem :=
  ⟨⟨fl, live, (h.touch_sameFrame hn hs h0 hv).1.ok⟩, .of_store_slot h.tables hn hs v⟩

theorem virtMakeGlobal_sameUpper (h : VirtOk d root s fl live M early others boot)
    (he : Phys.virtMakeGlobal d root s base pageCount = some s') :
    SameUpper d root s.mem s'.mem := by
  refine (forPages_sameUpper (Q := fun _ => True) id ?_ h (fun _ _ => trivial) he).2
  intro addr x y fl live _ h hxy
  have h : VirtOk d root x fl live M early others boot := h
  obtain ⟨⟨pte, s1⟩, hq, he⟩ := Option.bind_eq_some_iff.mp hxy
  obtain ⟨hs, rfl⟩ := virtFindPte_some hq
  clear hxy
  by_cases hp : s1.mem pte &&& IA32_PG_P = 0
  · simp only [hp, ne_eq, not_true_eq_false, if_false, Option.some.injEq] at he
    subst he
    exact ⟨⟨fl, live, h⟩, .refl _⟩
  · simp only [hp, ne_eq, not_false_eq_true, if_true, Option.some.injEq] at he
    subst he
    refine h.setEntry_sameUpper (pageNumber_lt addr) hs (fun _ h0 => by simp [h0] at hp) ?_
    rw [Nat.and_or_distrib_right, show IA32_PG_G &&& PAGING_4K_ADDRESS_MASK = 0 from rfl,
      Nat.or_zero]

theorem virtPopulate_sameUpper {globalPage : Bool}
    (h : VirtOk d root s fl live M early others boot)
    (he : Phys.virtPopulate d root s base pageCount globalPage = some s') :
    SameUpper d root s.mem s'.mem := by
  refine (forPages_sameUpper (Q := fun _ => True) id ?_ h (fun _ _ => trivial) he).2
  intro addr x y fl live _ h hxy
  have h : VirtOk d root x fl live M early others boot := h
  obtain ⟨⟨pte, s1⟩, hq, he⟩ := Option.bind_eq_some_iff.mp hxy
  obtain ⟨hs, rfl⟩ := virtFindPte_some hq
  clear hxy
  by_cases hp : s1.mem pte &&& IA32_PG_P = 0
  swap
  · simp only [hp, ne_eq, not_false_eq_true, if_true, Option.some.injEq] at he
    subst he
    exact ⟨⟨fl, live, h⟩, .refl _⟩
  simp only [hp, ne_eq, not_true_eq_false, if_false, Option.bind_eq_bind] at he
  obtain ⟨⟨r, s2⟩, halloc, he⟩ := Option.bind_eq_some_iff.mp he
  obtain ⟨x, rfl, he⟩ := Option.bind_eq_some_iff.mp he
  obtain rfl := Option.some.inj he
  rcases physAllocReserved_cases halloc with hnone | ⟨level, hl, hres⟩
  · simp at hnone
  obtain rfl : 6 = level := Option.some.inj (getPageLevelBySize_pageSize.symm.trans hl)
  obtain ⟨x', s', fl', e, ht, -⟩ := h.populatePage hs hp hres globalPage (virtIsUserAddress base)
  obtain ⟨x2, s3, fl3, e3, ha, ho, -⟩ := h.ok.physAllocReserved_page hres
  obtain ⟨rfl, rfl⟩ : x = x' ∧ s2 = s' := by simpa using halloc.symm.trans e
  obtain ⟨rfl, rfl⟩ : x = x2 ∧ s2 = s3 := by simpa using halloc.symm.trans e3
  obtain ⟨h2, hmem, -⟩ := h.allocPage ha ho
  have hframe : SameUpper d root s1.mem s2.mem := .of_frame h.tables hmem
  have hn := pageNumber_lt addr
  exact ⟨⟨fl', _, ht.ok⟩, hframe.trans (.of_store_slot h2.tables hn ((hframe.slot hn).trans hs) _)⟩

theorem virtInvalidate_sameUpper {count : ℕ} (h : VirtOk d root s fl live M early others boot)
    (he : Phys.virtInvalidate d root s base pageCount = some (count, s')) :
    (∃ fl' live', VirtOk d root s' fl' live' M early others boot) ∧
      SameUpper d root s.mem s'.mem := by
  refine forPages_sameUpper (Q := fun _ => True) (y := (count, s')) Prod.snd ?_ h
    (fun _ _ => trivial) he
  rintro addr ⟨cx, x⟩ ⟨cy, y⟩ fl live _ h hxy
  obtain ⟨⟨pte, s1⟩, hq, he⟩ := Option.bind_eq_some_iff.mp hxy
  obtain ⟨hs, rfl⟩ := virtFindPte_some hq
  clear hxy
  simp only at he
  split at he
  · simp at he
  split at he
  · obtain ⟨rfl, rfl⟩ := Prod.mk.inj (Option.some.inj he)
    exact h.setEntry_sameUpper (pageNumber_lt addr) hs (fun hne h0 => hne (by rw [h0, Nat.zero_and]))
      (by rw [Nat.and_assoc, Nat.and_self])
  · obtain ⟨rfl, rfl⟩ := Prod.mk.inj (Option.some.inj he)
    exact ⟨⟨fl, live, h⟩, .refl _⟩

/-- A frame that is mapped is given back, and its entry is cleared. -/
theorem releasePage_sameUpper {s1 : Phys} (h : VirtOk d root s fl live M early others boot)
    (hn : n < 2 ^ 36) (hb : n ∉ boot) (hs : slot d s.mem root n = some p) (h0 : s.mem p ≠ 0)
    (he : physFree d s (frameOf d (s.mem p)) PAGE_SIZE = some s1) :
    SameUpper d root s.mem (s1.setEntry p 0).mem := by
  have hleaf := leafEntry_of_slot hs
  rw [← hleaf] at h0 he
  obtain ⟨⟨hlive, -⟩, htable⟩ := h.frame n hn hb h0
  obtain ⟨s2, fl2, pages, e, hr⟩ := h.ok.physFree getLevelBySize_pageSize hlive
  obtain rfl := Option.some.inj (e.symm.trans he)
  obtain ⟨F, hF⟩ : ∃ F, F = frameOf d (leafEntry d s.mem root n) := ⟨_, rfl⟩
  rw [← hF] at hlive htable hr
  have hmem : ∀ t, IsTable d s.mem root t → ∀ a ∈ pageCells t, s2.mem a = s.mem a := by
    refine fun t ht => h.table_frame ht hr.frame
      (Set.disjoint_union_right.mpr ⟨h.table_notMem_free ht, ?_⟩)
    rcases h.held t ht with hl | hM
    · refine h.ok.inv.tiling.disjoint (Or.inl (Or.inr hl.1)) (Or.inl (Or.inr hlive)) fun he => ?_
      exact htable ((block_inj.mp he).1 ▸ ht)
    · exact hM.mono_right (h.ok.inv.tiling.subset (Or.inl (Or.inr hlive)))
  have hframe : SameUpper d root s.mem s2.mem := .of_frame h.tables hmem
  exact hframe.trans (.of_store_slot (h.tables.frame hmem).2.1 hn ((hframe.slot hn).trans hs) 0)

theorem virtFree_sameUpper (h : VirtOk d root s fl live M early others boot)
    (hb : ∀ n ∈ rangeOf base pageCount, n ∉ boot)
    (he : Phys.virtFree d root s base pageCount = some s') : SameUpper d root s.mem s'.mem := by
  obtain ⟨⟨count, s1⟩, e1, he⟩ := Option.bind_eq_some_iff.mp he
  obtain ⟨a, ea, he⟩ := Option.bind_eq_some_iff.mp he
  obtain ⟨⟨fl1, live1, h1⟩, hs1⟩ := h.virtInvalidate_sameUpper e1
  have h2 := h1.congr_acct (h1.ok.memAcctUnreserve ea)
  refine hs1.trans (forPages_sameUpper (Q := fun n => n ∉ boot) id ?_ h2 hb he).2
  intro addr x y fl live hnb h hxy
  have h : VirtOk d root x fl live M early others boot := h
  obtain ⟨⟨pte, s2⟩, hq, he⟩ := Option.bind_eq_some_iff.mp hxy
  obtain ⟨hs, rfl⟩ := virtFindPte_some hq
  clear hxy
  simp only at he
  split at he
  · rename_i h0
    split at he
    · simp at he
    obtain ⟨s3, e3, rfl⟩ := Option.map_eq_some_iff.mp he
    have hn := pageNumber_lt addr
    obtain ⟨s4, fl4, e4, ht, -⟩ := h.releasePage hn hnb hs h0
    obtain rfl := Option.some.inj (e4.symm.trans e3)
    exact ⟨⟨fl4, _, ht.ok⟩, h.releasePage_sameUpper hn hnb hs h0 e3⟩
  · obtain rfl := Option.some.inj he
    exact ⟨⟨fl, live, h⟩, .refl _⟩

end Phys.VirtOk

/-- The other clients of the allocator do not touch the tables. -/
theorem Clients.VirtOk.exec_sameUpper {d : DirectMap} {root : ℕ} {t t' : Clients} {boot : Set ℕ}
    {c : Call} (h : t.VirtOk d root boot) (hc : c.Plain) (hv : Clients.Valid d t c)
    (he : Clients.exec d t c = some t') : SameUpper d root t.phys.mem t'.phys.mem := by
  obtain ⟨hnd, fl, live, h⟩ := h
  cases c with
  | alloc size =>
    obtain ⟨⟨o, s⟩, e, rfl⟩ := Option.map_eq_some_iff.mp he
    rcases h.ok.physAlloc size with e' | ⟨l, p, s', fl', pages, -, e', ha, -⟩
    · obtain ⟨rfl, rfl⟩ := Prod.mk.inj (Option.some.inj (e'.symm.trans e))
      exact .refl _
    · obtain ⟨rfl, rfl⟩ := Prod.mk.inj (Option.some.inj (e'.symm.trans e))
      exact .of_frame h.tables fun t ht => h.table_frame ht ha.frame (h.table_notMem_free ht)
  | free ptr size =>
    obtain ⟨s, e, rfl⟩ := Option.map_eq_some_iff.mp he
    rcases hv with rfl | ⟨l, hl, hb⟩
    · simp only [Phys.physFree, if_true, Option.some.injEq] at e
      subst e
      exact .refl _
    · have hother : block ptr l ∈ t.liveSet := hb
      obtain ⟨s', fl', pages, e', hr⟩ := h.ok.physFree hl (h.others_live hother)
      obtain rfl := Option.some.inj (e'.symm.trans e)
      exact .of_frame h.tables fun t ht => h.table_frame ht hr.frame
        (Set.disjoint_union_right.mpr ⟨h.table_notMem_free ht, h.table_notMem_other ht hother⟩)
  | write b content =>
    obtain rfl := Option.some.inj he
    refine .of_frame h.tables fun t ht a ha => if_neg fun hc => ?_
    exact Set.disjoint_left.mp (h.table_notMem_other ht (show b ∈ _ from hv)) ha hc
  | _ => exact hc.elim

namespace EarlyOk

variable {d : DirectMap} {entries : Memmap} {root : ℕ} {b b' : Boot} {xs : List ℕ}
  {i j k p t u v virt phys phys' flags addr numPages : ℕ}

/-- The tables of the boot code are not for the user. -/
theorem nextLevel_userBits (h : EarlyOk d entries root b xs) (hu : UserBits d root b.mem)
    (hi : i < 3) (hk : k < 512 ^ i) (hj : j < 512)
    (ht : tableAt (nextTable d b.mem) root 512 i k = some t) (hupper : ¬ LowerEntry i k j)
    (he : b.earlyVirtGetNextLevel d entries (entryPtr t j) = some (u, b')) :
    UserBits d root b'.mem := by
  have htab : IsTable d b.mem root t := ⟨i, hi.le, k, hk, ht⟩
  by_cases hp : b.mem (entryPtr t j) &&& IA32_PG_P = 0
  swap
  · simp only [Boot.earlyVirtGetNextLevel, hp, if_false, Option.bind_eq_bind, Option.bind_some,
      Option.some.injEq, Prod.mk.injEq] at he
    exact he.2 ▸ hu
  cases xs with
  | nil => simp [Boot.earlyVirtGetNextLevel, hp, h.alloc_nil] at he
  | cons x xs =>
    obtain ⟨b1, e, h1, htab1, -, hzero, hsame, hfresh, hx, -⟩ := h.alloc
    obtain ⟨hdvd, hrange⟩ := usablePage_spec h.valid h.direct hx
    obtain ⟨v, hv⟩ : ∃ v, v = d.directToPhys (d.physToDirect x) ||| IA32_PG_P ||| IA32_PG_RW :=
      ⟨_, rfl⟩
    obtain ⟨hvp, hvx⟩ := Phys.newEntry_spec h.physBits hdvd hrange
      (show (IA32_PG_P ||| IA32_PG_RW) &&& IA32_PG_P ≠ 0 by decide)
      (show (IA32_PG_P ||| IA32_PG_RW) &&& PAGING_4K_ADDRESS_MASK = 0 by decide)
    rw [← Nat.or_assoc, ← hv] at hvp hvx
    have hins : TablesOk.Insert d b1.mem root i k j t (d.physToDirect x) v :=
      { level := hi
        key := hk
        index := hj
        table := (htab1 i hi.le k hk).trans ht
        empty := by
          rw [nextTable, hsame t htab _ (entryPtr_mem_pageCells hj)]
          exact if_pos hp
        aligned := hdvd
        range := hrange
        fresh := hfresh
        zero := hzero
        present := hvp
        address := hvx }
    have hvu : v &&& IA32_PG_U = 0 := by
      have hx4 : 4096 ∣ d.directToPhys (d.physToDirect x) :=
        Nat.dvd_sub hdvd ((by decide : (4096 : ℕ) ∣ 2 ^ 21).trans d.base_aligned)
      rw [hv, Nat.and_or_distrib_right, Nat.and_or_distrib_right,
        show _ &&& IA32_PG_U = 0 from and_two_pow_of_dvd (i := 2) hx4 (by norm_num)]
      decide
    simp only [Boot.earlyVirtGetNextLevel, hp, e, if_true, Option.bind_eq_bind, Option.bind_some,
      Option.some.injEq, Prod.mk.injEq, ← hv] at he
    rw [← he.2]
    exact (hu.congr (.of_frame h.tables hsame)).insert h1.tables hins (by simp [hvu, hupper])

theorem walk_userBits (h : EarlyOk d entries root b xs) (hu : UserBits d root b.mem) (hi : i ≤ 3)
    (ht : Phys.walkTable d b.mem root (pageNumber virt) i = some t)
    (hupper : 2 ^ 35 ≤ pageNumber virt)
    (he : Boot.earlyVirtWalk d entries virt i t b = some (p, b')) : UserBits d root b'.mem := by
  induction i generalizing b xs t with
  | zero =>
    obtain ⟨-, rfl⟩ := Prod.mk.inj (Option.some.inj he)
    exact hu
  | succ i ih =>
    have hn := pageNumber_lt virt
    have hj : pageNumber virt / 512 ^ (i + 1) % 512 < 512 := Nat.mod_lt _ (by decide)
    have hkey : pageNumber virt / 512 ^ (i + 1) =
        pageNumber virt / 512 ^ (i + 1 + 1) * 512 + pageNumber virt / 512 ^ (i + 1) % 512 := by
      rw [pow_succ _ (i + 1), ← Nat.div_div_eq_div_mul, Nat.div_add_mod']
    simp only [Boot.earlyVirtWalk, pagingIndex_eq virt hi, Option.bind_eq_bind] at he
    obtain ⟨⟨u, b1⟩, e1, he⟩ := Option.bind_eq_some_iff.mp he
    rcases h.nextLevel (show 3 - (i + 1) < 3 by omega) (Phys.walkKey_lt hn hi) hj ht with
      ⟨e, -⟩ | ⟨u2, b2, xs2, e, ht2, -, hu2⟩
    · simp [e] at e1
    obtain ⟨rfl, rfl⟩ := Prod.mk.inj (Option.some.inj (e.symm.trans e1))
    rw [← hkey, show 3 - (i + 1) + 1 = 3 - i by omega] at hu2
    refine ih ht2.ok (h.nextLevel_userBits hu (by omega) (Phys.walkKey_lt hn hi) hj ht ?_ e)
      (by omega) hu2 he
    rw [lowerEntry_iff (by omega)]
    omega

theorem getPte_userBits (h : EarlyOk d entries root b xs) (hu : UserBits d root b.mem)
    (hupper : 2 ^ 35 ≤ pageNumber virt)
    (he : b.earlyVirtGetPte d entries root virt = some (p, b')) : UserBits d root b'.mem :=
  h.walk_userBits hu le_rfl (Phys.walkTable_top (s := b.clients.phys) _) hupper he

theorem earlyVirtMapPage_userBits (h : EarlyOk d entries root b xs) (hu : UserBits d root b.mem)
    (hupper : 2 ^ 35 ≤ pageNumber addr)
    (he : Boot.earlyVirtMapPage d entries root flags addr (phys, b) = some (phys', b')) :
    UserBits d root b'.mem := by
  rcases h.getPte addr with ⟨e, -⟩ | ⟨p, b1, xs1, e, ht, -, hp⟩
  · simp [Boot.earlyVirtMapPage, e] at he
  have h1 := h.getPte_userBits hu hupper e
  simp only [Boot.earlyVirtMapPage, e, Option.bind_eq_bind, Option.bind_some] at he
  split at he
  · simp at he
  obtain ⟨-, rfl⟩ := Prod.mk.inj (Option.some.inj he)
  exact h1.congr (.of_store_slot ht.ok.tables (pageNumber_lt addr) hp _)

theorem earlyVirtMap_userBits (h : EarlyOk d entries root b xs) (hu : UserBits d root b.mem)
    (hphys : phys < 2 ^ 64) (hupper : ∀ n ∈ rangeOf virt numPages, 2 ^ 35 ≤ n)
    (he : b.earlyVirtMap d entries root virt phys numPages flags = some b') :
    UserBits d root b'.mem := by
  obtain ⟨⟨phys', b1⟩, e, rfl⟩ := Option.map_eq_some_iff.mp he
  clear he
  induction numPages generalizing phys' b1 with
  | zero =>
    obtain ⟨-, rfl⟩ := Prod.mk.inj (Option.some.inj e)
    exact hu
  | succ n ih =>
    rw [Phys.rangeOf_succ] at hupper
    obtain ⟨⟨phys1, b2⟩, e1, e2⟩ := Option.bind_eq_some_iff.mp e
    obtain ⟨-, ⟨xs1, ht1⟩, -⟩ := h.forPages_earlyVirtMapPage hphys e1
    exact ht1.ok.earlyVirtMapPage_userBits (ih (fun n hn => hupper n (Or.inl hn)) phys1 b2 e1)
      (hupper _ (Or.inr rfl)) e2

theorem earlyMapBitmapPage_userBits (h : EarlyOk d entries root b xs)
    (hu : UserBits d root b.mem) (hupper : 2 ^ 35 ≤ pageNumber addr)
    (he : b.earlyMapBitmapPage d entries root addr = some b') : UserBits d root b'.mem := by
  rcases h.getPte addr with ⟨e, -⟩ | ⟨p, b1, xs1, e, ht, -, hp⟩
  · simp [Boot.earlyMapBitmapPage, e] at he
  have h1 := h.getPte_userBits hu hupper e
  simp only [Boot.earlyMapBitmapPage, e, Option.bind_eq_bind, Option.bind_some] at he
  split at he
  · obtain rfl := Option.some.inj he
    exact h1
  · obtain ⟨⟨page, b2⟩, e2, he⟩ := Option.bind_eq_some_iff.mp he
    obtain rfl := Option.some.inj he
    cases xs1 with
    | nil => simp [ht.ok.alloc_nil] at e2
    | cons x xs2 =>
      obtain ⟨b3, e3, h3, htab, -, -, hsame, -⟩ := ht.ok.alloc
      obtain ⟨rfl, rfl⟩ := Prod.mk.inj (Option.some.inj (e2.symm.trans e3))
      have hn := pageNumber_lt addr
      have hs := TablesOk.slot_eq_of_tableAt_eq htab hn
      exact (h1.congr (.of_frame ht.ok.tables hsame)).congr
        (.of_store_slot h3.tables hn (hs.trans hp) _)

/-- The memory that is handed over holds no table. -/
theorem earlyPhysAddMemory_sameUpper (h : EarlyOk d entries root b xs)
    (he : b.earlyPhysAddMemory d entries = some b') : SameUpper d root b.mem b'.mem := by
  obtain ⟨htop, hpages⟩ := h.watermark.handOver h.valid
  have hnone : b.clients.added = ∅ := by simp [Clients.added, h.initial.2.2.2.2.1]
  obtain ⟨t, e, -, hr, -, -, -, -, hf⟩ := earlyAddEntries_spec h.valid
    (fun u hu ht => by
      rw [h.direct.pageCount_mul h.valid]
      exact h.valid.le_topAddress hu (by simp [mapped, ht]))
    htop (.start h.initial) (by simp [hnone])
  rw [h.initial.2.2.2.2.1, List.append_nil] at hr
  have hmem : ∀ u, IsTable d b.mem root u → ∀ a ∈ pageCells u, t.phys.mem a = b.mem a := by
    intro u hu a ha
    refine hf a (fun hc => ?_) fun l hl he =>
      Phys.Inv.head_notMem_range hl (he ▸ h.tables.range u hu ha)
    -- a table is a page that was handed out early
    obtain ⟨x, hx, hxs, rfl⟩ := h.used u hu
    have hdvd : PAGE_SIZE ∣ x := (h.valid.mem_usablePages.mp hx).1
    obtain ⟨r, hrm, har⟩ := hc
    rw [hr, List.mem_reverse, List.mem_map] at hrm
    obtain ⟨q, hq, rfl⟩ := hrm
    obtain ⟨h1, h2, h3⟩ := h.valid.handOver_aligned htop q hq
    refine hxs (hpages ▸ List.mem_flatMap.mpr ⟨q, hq, ?_⟩)
    rw [rangePages, mem_pagesFrom h1 (Nat.dvd_sub h2 h1)]
    simp only [pageCells, DirectMap.physToDirect, DirectMap.directRange, Set.mem_Ico] at ha har
    rw [PAGE_SIZE_eq] at *
    exact ⟨hdvd, by omega, by omega⟩
  have hb' : b'.mem = t.phys.mem := by
    simp only [Boot.earlyPhysAddMemory, e, Option.bind_some, Clients.exec, Option.map_some,
      Option.some.injEq] at he
    rw [← he]
    rfl
  exact hb' ▸ .of_frame h.tables hmem

end EarlyOk

/-- The pages of the call are in one half of the address space, and its tables are made for the
user if it is the lower one. The boot code maps pages of the upper half. -/
def VirtCall.OneHalf : VirtCall → Prop
  | .earlyMap virt _ numPages _ => ∀ n ∈ rangeOf virt numPages, 2 ^ 35 ≤ n
  | .earlyMapBitmapPage bitmapPtr => 2 ^ 35 ≤ pageNumber bitmapPtr
  | .reservePageTables base pageCount => ∀ i < pageCount,
      (virtIsUserAddress (pageAddr base i) = true ↔ pageNumber (pageAddr base i) < 2 ^ 35)
  | .populate base pageCount _ => ∀ n ∈ rangeOf base pageCount,
      (virtIsUserAddress base = true ↔ n < 2 ^ 35)
  | .client c => c.Plain
  | .earlyAddMemory | .makeGlobal _ _ | .free _ _ => True

namespace VirtState

variable {d : DirectMap} {entries : Memmap} {vs vs' : VirtState} {c : VirtCall}

/-- Every call keeps the bits for the user. -/
theorem userBits_exec (h : vs.Good d entries) (hu : UserBits d vs.pageTable vs.phys.mem)
    (hc : c.OneHalf) (hv : vs.Valid d c) (he : vs.exec d entries c = some vs') :
    UserBits d vs'.pageTable vs'.phys.mem := by
  cases c with
  | earlyMap virt phys numPages flags =>
    obtain ⟨xs, hok⟩ := h.early hv.1
    obtain ⟨b, e, rfl⟩ := Option.map_eq_some_iff.mp he
    exact hok.earlyVirtMap_userBits hu hv.2 hc e
  | earlyMapBitmapPage bitmapPtr =>
    obtain ⟨xs, hok⟩ := h.early hv
    obtain ⟨b, e, rfl⟩ := Option.map_eq_some_iff.mp he
    exact hok.earlyMapBitmapPage_userBits hu hc e
  | earlyAddMemory =>
    obtain ⟨xs, hok⟩ := h.early hv
    obtain ⟨b, e, rfl⟩ := Option.map_eq_some_iff.mp he
    exact hu.congr (hok.earlyPhysAddMemory_sameUpper e)
  | makeGlobal base pageCount =>
    obtain ⟨-, fl, live, hok⟩ := h.late hv
    obtain ⟨s, e, rfl⟩ := Option.map_eq_some_iff.mp he
    exact hu.congr (hok.virtMakeGlobal_sameUpper e)
  | reservePageTables base pageCount =>
    obtain ⟨-, fl, live, hok⟩ := h.late hv
    obtain ⟨⟨r, s⟩, e, rfl⟩ := Option.map_eq_some_iff.mp he
    exact hok.virtReservePageTables_userBits hu hc e
  | populate base pageCount globalPage =>
    obtain ⟨-, fl, live, hok⟩ := h.late hv
    obtain ⟨s, e, rfl⟩ := Option.map_eq_some_iff.mp he
    exact hu.congr (hok.virtPopulate_sameUpper e)
  | free base pageCount =>
    obtain ⟨-, fl, live, hok⟩ := h.late hv.1
    obtain ⟨s, e, rfl⟩ := Option.map_eq_some_iff.mp he
    exact hu.congr (hok.virtFree_sameUpper hv.2 e)
  | client c =>
    obtain ⟨hl, -, hvalid⟩ := hv
    obtain ⟨t, e, rfl⟩ := Option.map_eq_some_iff.mp he
    exact hu.congr ((h.late hl).exec_sameUpper hc hvalid e)

end VirtState

end Tomato
