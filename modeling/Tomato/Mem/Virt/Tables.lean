import Mathlib
import Tomato.Lib.Radix
import Tomato.Mem.Virt.Basic

/-!
# The tables of a page table

A page table is a radix tree in memory: the table reached with the index of an address
at every level, which is a digit of its page number. `TablesOk` says that no table is
reached in two ways, so that the leaf entries of different pages are different words.
-/

namespace Tomato

open Radix

variable {d : DirectMap} {m m' : Memory} {root t t' p p' n n' i j k x : ℕ}

theorem PAGING_4K_ADDRESS_MASK_eq : PAGING_4K_ADDRESS_MASK = (2 ^ 40 - 1) <<< 12 := by decide

theorem and_addressMask (h : 4096 ∣ x) (hx : x < 2 ^ 52) : x &&& PAGING_4K_ADDRESS_MASK = x := by
  obtain ⟨y, rfl⟩ := h
  rw [PAGING_4K_ADDRESS_MASK_eq, show 4096 * y = y <<< 12 by rw [Nat.shiftLeft_eq]; omega,
    ← Nat.shiftLeft_and_distrib, Nat.and_two_pow_sub_one_eq_mod, Nat.mod_eq_of_lt (by omega)]

/-- The flags are below the address. -/
theorem and_two_pow_of_dvd {i : ℕ} (h : 4096 ∣ x) (hi : i < 12) : x &&& 2 ^ i = 0 := by
  obtain ⟨q, rfl⟩ := h
  rw [Nat.and_two_pow, show 4096 = 2 ^ 12 from rfl, Nat.testBit_two_pow_mul]
  simp [hi]

theorem addressMask_dvd (x : ℕ) : 4096 ∣ x &&& PAGING_4K_ADDRESS_MASK := by
  refine ⟨(x >>> 12) &&& (2 ^ 40 - 1), Nat.eq_of_testBit_eq fun b => ?_⟩
  rw [PAGING_4K_ADDRESS_MASK_eq, Nat.mul_comm, show (4096 : ℕ) = 2 ^ 12 from rfl, ← Nat.shiftLeft_eq]
  simp only [Nat.testBit_and, Nat.testBit_shiftLeft, Nat.testBit_shiftRight]
  by_cases hb : 12 ≤ b <;> simp [hb]

/-- The flags do not touch the address. -/
theorem or_and_addressMask {flags : ℕ} (h : 4096 ∣ x) (hx : x < 2 ^ 52)
    (hf : flags &&& PAGING_4K_ADDRESS_MASK = 0) :
    (x ||| flags) &&& PAGING_4K_ADDRESS_MASK = x := by
  rw [Nat.and_or_distrib_right, and_addressMask h hx, hf, Nat.or_zero]

theorem or_and_present {flags : ℕ} (hf : flags &&& IA32_PG_P ≠ 0) : (x ||| flags) &&& IA32_PG_P ≠ 0 := by
  rw [Nat.and_or_distrib_right]
  intro h
  exact hf (Nat.or_eq_zero_iff.mp h).2

/-- The bits 12 to 47 of an address. -/
def pageNumber (virt : ℕ) : ℕ := virt / 2 ^ 12 % 2 ^ 36

theorem pageNumber_lt (virt : ℕ) : pageNumber virt < 2 ^ 36 := Nat.mod_lt _ (Nat.two_pow_pos 36)

theorem pagingIndex_eq (virt : ℕ) (hi : i ≤ 3) :
    pagingIndex virt i = pageNumber virt / 512 ^ i % 512 := by
  have hmask : PAGING_INDEX_MASK = 2 ^ 9 - 1 := rfl
  rw [pagingIndex, hmask, Nat.and_two_pow_sub_one_eq_mod, Nat.shiftRight_eq_div_pow, pageNumber]
  interval_cases i <;> simp only [PAGING_INDEX_BITS, PAGE_SHIFT] <;> omega

/-- The table that the entry leads to. -/
def nextTable (d : DirectMap) (m : Memory) (t j : ℕ) : Option ℕ :=
  let value := m (entryPtr t j)
  if value &&& IA32_PG_P = 0 then none
  else some (d.physToDirect (value &&& PAGING_4K_ADDRESS_MASK))

/-- The word with the leaf entry of the page. -/
def slot (d : DirectMap) (m : Memory) (root n : ℕ) : Option ℕ :=
  (tableAt (nextTable d m) root 512 3 (n / 512)).map fun t => entryPtr t (n % 512)

/-- The leaf entry of the page, zero where there is none. -/
def leafEntry (d : DirectMap) (m : Memory) (root n : ℕ) : ℕ :=
  ((slot d m root n).map m).getD 0

def IsTable (d : DirectMap) (m : Memory) (root t : ℕ) : Prop :=
  ∃ i ≤ 3, ∃ k < 512 ^ i, tableAt (nextTable d m) root 512 i k = some t

/-- The page tables. -/
def tables (d : DirectMap) (m : Memory) (root : ℕ) : Set ℕ := {t | IsTable d m root t}

/-- The addresses of the page at the pointer. -/
def pageCells (t : ℕ) : Set ℕ := Set.Ico t (t + 4096)

structure TablesOk (d : DirectMap) (m : Memory) (root : ℕ) : Prop where
  separate : Separate (nextTable d m) root 512 3
  aligned : ∀ t, IsTable d m root t → 4096 ∣ t
  range : ∀ t, IsTable d m root t → pageCells t ⊆ d.range

theorem entryPtr_mem_pageCells (hj : j < 512) : entryPtr t j ∈ pageCells t := by
  simp only [entryPtr, pageCells, Set.mem_Ico]
  omega

theorem entryPtr_inj {j' : ℕ} (ht : 4096 ∣ t) (ht' : 4096 ∣ t') (hj : j < 512) (hj' : j' < 512)
    (h : entryPtr t j = entryPtr t' j') : t = t' ∧ j = j' := by
  obtain ⟨x, rfl⟩ := ht
  obtain ⟨y, rfl⟩ := ht'
  simp only [entryPtr] at h
  omega

theorem pageCells_disjoint (ht : 4096 ∣ t) (ht' : 4096 ∣ t') (hne : t ≠ t') :
    Disjoint (pageCells t) (pageCells t') := by
  obtain ⟨x, rfl⟩ := ht
  obtain ⟨y, rfl⟩ := ht'
  rw [Set.disjoint_left]
  intro a ha hb
  simp only [pageCells, Set.mem_Ico] at ha hb
  omega

theorem pageNumber_div_lt (hn : n < 2 ^ 36) : n / 512 < 512 ^ 3 := by omega

theorem slot_eq_some (h : slot d m root n = some p) :
    ∃ t, tableAt (nextTable d m) root 512 3 (n / 512) = some t ∧ p = entryPtr t (n % 512) := by
  obtain ⟨t, ht, rfl⟩ := Option.map_eq_some_iff.mp h
  exact ⟨t, ht, rfl⟩

namespace TablesOk

theorem isTable_slot (hn : n < 2 ^ 36) (h : slot d m root n = some p) :
    ∃ t, IsTable d m root t ∧ p = entryPtr t (n % 512) := by
  obtain ⟨t, ht, rfl⟩ := slot_eq_some h
  exact ⟨t, ⟨3, le_rfl, _, pageNumber_div_lt hn, ht⟩, rfl⟩

/-- Different pages have different leaf entries. -/
theorem slot_inj (h : TablesOk d m root) (hn : n < 2 ^ 36) (hn' : n' < 2 ^ 36)
    (h1 : slot d m root n = some p) (h2 : slot d m root n' = some p) : n = n' := by
  obtain ⟨t, ht, rfl⟩ := slot_eq_some h1
  obtain ⟨t', ht', he⟩ := slot_eq_some h2
  have hk := pageNumber_div_lt hn
  have hk' := pageNumber_div_lt hn'
  obtain ⟨rfl, hmod⟩ := entryPtr_inj (h.aligned t ⟨3, le_rfl, _, hk, ht⟩)
    (h.aligned t' ⟨3, le_rfl, _, hk', ht'⟩) (Nat.mod_lt _ (by decide)) (Nat.mod_lt _ (by decide)) he
  have hdiv := (h.separate 3 le_rfl _ hk 3 le_rfl _ hk' t ht ht').2
  omega

/-- A change of words that are not entries of the upper levels keeps the tables. -/
theorem tableAt_congr (hm : ∀ i < 3, ∀ k < 512 ^ i, ∀ t,
    tableAt (nextTable d m) root 512 i k = some t →
      ∀ j < 512, m' (entryPtr t j) = m (entryPtr t j)) (hi : i ≤ 3) (hk : k < 512 ^ i) :
    tableAt (nextTable d m') root 512 i k = tableAt (nextTable d m) root 512 i k := by
  refine Radix.tableAt_congr (fun i hi k hk t ht j hj => ?_) hi hk
  simp only [nextTable, hm i hi k hk t ht j hj]

theorem of_tableAt_eq (h : TablesOk d m root) (he : ∀ i ≤ 3, ∀ k < 512 ^ i,
    tableAt (nextTable d m') root 512 i k = tableAt (nextTable d m) root 512 i k) :
    TablesOk d m' root := by
  have hiff : ∀ t, IsTable d m' root t → IsTable d m root t := by
    rintro t ⟨i, hi, k, hk, ht⟩
    exact ⟨i, hi, k, hk, he i hi k hk ▸ ht⟩
  exact ⟨h.separate.congr he, fun t ht => h.aligned t (hiff t ht),
    fun t ht => h.range t (hiff t ht)⟩

theorem slot_eq_of_tableAt_eq (he : ∀ i ≤ 3, ∀ k < 512 ^ i,
    tableAt (nextTable d m') root 512 i k = tableAt (nextTable d m) root 512 i k)
    (hn : n < 2 ^ 36) : slot d m' root n = slot d m root n := by
  rw [slot, slot, he 3 le_rfl _ (pageNumber_div_lt hn)]

/-- A leaf entry is changed: the tables stay, and so do the other leaf entries. -/
theorem store_slot (h : TablesOk d m root) (hn : n < 2 ^ 36) (hs : slot d m root n = some p)
    (v : ℕ) :
    (∀ i ≤ 3, ∀ k < 512 ^ i, tableAt (nextTable d (m.store p v)) root 512 i k =
      tableAt (nextTable d m) root 512 i k) ∧
    leafEntry d (m.store p v) root n = v ∧
    ∀ n' < 2 ^ 36, n' ≠ n → leafEntry d (m.store p v) root n' = leafEntry d m root n' := by
  obtain ⟨t, ht, hp⟩ := slot_eq_some hs
  have hk := pageNumber_div_lt hn
  have htab : ∀ i ≤ 3, ∀ k < 512 ^ i, tableAt (nextTable d (m.store p v)) root 512 i k =
      tableAt (nextTable d m) root 512 i k := by
    intro i hi k hk'
    refine tableAt_congr (fun i' hi' k' hk' t' ht' j hj => Memory.store_of_ne _ _ ?_) hi hk'
    rw [hp]
    intro he
    obtain ⟨rfl, -⟩ := entryPtr_inj (h.aligned t' ⟨i', by omega, k', hk', ht'⟩)
      (h.aligned t ⟨3, le_rfl, _, hk, ht⟩) hj (Nat.mod_lt _ (by decide)) he
    have := (h.separate i' (by omega) k' hk' 3 le_rfl _ hk t' ht' ht).1
    omega
  refine ⟨htab, ?_, fun n' hn' hne => ?_⟩
  · rw [leafEntry, slot_eq_of_tableAt_eq htab hn, hs]
    simp
  · rw [leafEntry, leafEntry, slot_eq_of_tableAt_eq htab hn']
    cases hs' : slot d m root n' with
    | none => rfl
    | some p' =>
      have hne' : p' ≠ p := by
        rintro rfl
        exact hne (h.slot_inj hn' hn hs' hs)
      simp [hne']

/-- A change outside of the tables is not seen. -/
theorem frame (h : TablesOk d m root)
    (hm : ∀ t, IsTable d m root t → ∀ a ∈ pageCells t, m' a = m a) :
    (∀ i ≤ 3, ∀ k < 512 ^ i, tableAt (nextTable d m') root 512 i k =
      tableAt (nextTable d m) root 512 i k) ∧
    TablesOk d m' root ∧ ∀ n < 2 ^ 36, leafEntry d m' root n = leafEntry d m root n := by
  have htab : ∀ i ≤ 3, ∀ k < 512 ^ i, tableAt (nextTable d m') root 512 i k =
      tableAt (nextTable d m) root 512 i k := fun i hi k hk =>
    tableAt_congr (fun i hi k hk t ht j hj =>
      hm t ⟨i, by omega, k, hk, ht⟩ _ (entryPtr_mem_pageCells hj)) hi hk
  refine ⟨htab, h.of_tableAt_eq htab, fun n hn => ?_⟩
  rw [leafEntry, leafEntry, slot_eq_of_tableAt_eq htab hn]
  cases hs : slot d m root n with
  | none => rfl
  | some p =>
    obtain ⟨t, ht, rfl⟩ := isTable_slot hn hs
    simp [hm t ht _ (entryPtr_mem_pageCells (Nat.mod_lt _ (by decide)))]

theorem tables_eq (he : ∀ i ≤ 3, ∀ k < 512 ^ i, tableAt (nextTable d m') root 512 i k =
    tableAt (nextTable d m) root 512 i k) : tables d m' root = tables d m root := by
  ext t
  exact exists_congr fun i => and_congr_right fun hi => exists_congr fun k =>
    and_congr_right fun hk => by rw [he i hi k hk]

theorem finite_tables (d : DirectMap) (m : Memory) (root : ℕ) : (tables d m root).Finite := by
  refine ((Set.finite_Iic 3).biUnion fun i _ => (Set.finite_Iio (512 ^ i)).image fun k =>
    (tableAt (nextTable d m) root 512 i k).getD 0).subset ?_
  rintro t ⟨i, hi, k, hk, ht⟩
  exact Set.mem_biUnion hi ⟨k, hk, by simp [ht]⟩

/-- An empty entry of an upper level is filled with a fresh table. -/
structure Insert (d : DirectMap) (m : Memory) (root i k j t x v : ℕ) : Prop where
  level : i < 3
  key : k < 512 ^ i
  index : j < 512
  table : tableAt (nextTable d m) root 512 i k = some t
  empty : nextTable d m t j = none
  aligned : 4096 ∣ x
  range : pageCells x ⊆ d.range
  fresh : ¬ IsTable d m root x
  zero : ∀ a ∈ pageCells x, m a = 0
  present : v &&& IA32_PG_P ≠ 0
  address : d.physToDirect (v &&& PAGING_4K_ADDRESS_MASK) = x

namespace Insert

variable {v : ℕ}

theorem isTable (h : Insert d m root i k j t x v) : IsTable d m root t :=
  ⟨i, h.level.le, k, h.key, h.table⟩

theorem ne (h : Insert d m root i k j t x v) : t ≠ x := fun he => h.fresh (he ▸ h.isTable)

theorem inserted (h : Insert d m root i k j t x v) (hm : TablesOk d m root) :
    Inserted (nextTable d m) (nextTable d (m.store (entryPtr t j) v)) root 512 3 i k j t x where
  depth := h.level
  key := h.key
  index := h.index
  table := h.table
  empty := h.empty
  entry := by
    simp only [nextTable, Memory.store_self, if_neg h.present, h.address]
  fresh := fun d' hd k' hk hx => h.fresh ⟨d', hd, k', hk, hx⟩
  new := fun j' hj' => by
    have hne : entryPtr x j' ≠ entryPtr t j := fun he =>
      h.ne (entryPtr_inj h.aligned (hm.aligned t h.isTable) hj' h.index he).1.symm
    have h0 : m (entryPtr x j') = 0 := h.zero _ (entryPtr_mem_pageCells hj')
    simp [nextTable, hne, h0]
  same := fun d' hd k' hk u hu j' hj' hne => by
    have : entryPtr u j' ≠ entryPtr t j := by
      intro he
      obtain ⟨h1, h2⟩ := entryPtr_inj (hm.aligned u ⟨d', hd.le, k', hk, hu⟩)
        (hm.aligned t h.isTable) hj' h.index he
      exact hne.elim (· h1) (· h2)
    simp [nextTable, this]

theorem tableAt_eq (h : Insert d m root i k j t x v) (hm : TablesOk d m root) {i' k' : ℕ}
    (hi : i' ≤ 3) (hk : k' < 512 ^ i') :
    tableAt (nextTable d (m.store (entryPtr t j) v)) root 512 i' k' =
      if i' = i + 1 ∧ k' = k * 512 + j then some x
      else tableAt (nextTable d m) root 512 i' k' :=
  (h.inserted hm).tableAt_eq hm.separate hi hk

theorem tableAt_of_some (h : Insert d m root i k j t x v) (hm : TablesOk d m root) {i' k' u : ℕ}
    (hi : i' ≤ 3) (hk : k' < 512 ^ i') (hu : tableAt (nextTable d m) root 512 i' k' = some u) :
    tableAt (nextTable d (m.store (entryPtr t j) v)) root 512 i' k' = some u :=
  (h.inserted hm).tableAt_of_some hm.separate hi hk hu

theorem isTable_iff (h : Insert d m root i k j t x v) (hm : TablesOk d m root) {u : ℕ} :
    IsTable d (m.store (entryPtr t j) v) root u ↔ IsTable d m root u ∨ u = x := by
  constructor
  · rintro ⟨i', hi, k', hk, hu⟩
    rw [h.tableAt_eq hm hi hk] at hu
    split at hu
    · exact Or.inr (Option.some.inj hu).symm
    · exact Or.inl ⟨i', hi, k', hk, hu⟩
  · rintro (⟨i', hi, k', hk, hu⟩ | rfl)
    · exact ⟨i', hi, k', hk, h.tableAt_of_some hm hi hk hu⟩
    · refine ⟨i + 1, h.level, k * 512 + j, append_lt_pow h.key h.index, ?_⟩
      rw [h.tableAt_eq hm h.level (append_lt_pow h.key h.index), if_pos ⟨rfl, rfl⟩]

theorem ncard_tables (h : Insert d m root i k j t x v) (hm : TablesOk d m root) :
    (tables d (m.store (entryPtr t j) v) root).ncard = (tables d m root).ncard + 1 := by
  have hset : tables d (m.store (entryPtr t j) v) root = insert x (tables d m root) := by
    ext u
    exact (h.isTable_iff hm).trans or_comm
  have hnew : x ∉ tables d m root := h.fresh
  rw [hset, Set.ncard_insert_of_notMem hnew (finite_tables d m root)]

theorem tablesOk (h : Insert d m root i k j t x v) (hm : TablesOk d m root) :
    TablesOk d (m.store (entryPtr t j) v) root := by
  refine ⟨(h.inserted hm).separate hm.separate, fun u hu => ?_, fun u hu => ?_⟩
  · rcases (h.isTable_iff hm).mp hu with hu | rfl
    · exact hm.aligned u hu
    · exact h.aligned
  · rcases (h.isTable_iff hm).mp hu with hu | rfl
    · exact hm.range u hu
    · exact h.range

/-- The leaf entries do not change: those of a new leaf table are empty. -/
theorem leafEntry_eq (h : Insert d m root i k j t x v) (hm : TablesOk d m root)
    (hn : n < 2 ^ 36) :
    leafEntry d (m.store (entryPtr t j) v) root n = leafEntry d m root n := by
  have hk := pageNumber_div_lt hn
  have hmod : n % 512 < 512 := Nat.mod_lt _ (by decide)
  rw [leafEntry, leafEntry, slot, slot, h.tableAt_eq hm le_rfl hk]
  split
  · rename_i hc
    obtain ⟨hi, hkey⟩ := hc
    obtain rfl : i = 2 := by omega
    have hnone : tableAt (nextTable d m) root 512 3 (n / 512) = none := by
      rw [hkey]
      exact (h.inserted hm).tableAt_none
    have hne : entryPtr x (n % 512) ≠ entryPtr t j := fun he =>
      h.ne (entryPtr_inj h.aligned (hm.aligned t h.isTable) hmod h.index he).1.symm
    have h0 : m (entryPtr x (n % 512)) = 0 := h.zero _ (entryPtr_mem_pageCells hmod)
    simp [hnone, hne, h0]
  · cases ht : tableAt (nextTable d m) root 512 3 (n / 512) with
    | none => rfl
    | some u =>
      have hne : entryPtr u (n % 512) ≠ entryPtr t j := by
        intro he
        obtain ⟨rfl, -⟩ := entryPtr_inj (hm.aligned u ⟨3, le_rfl, _, hk, ht⟩)
          (hm.aligned t h.isTable) hmod h.index he
        have := (hm.separate 3 le_rfl _ hk i h.level.le k h.key u ht h.table).1
        have := h.level
        omega
      simp [hne]

end Insert

end TablesOk

end Tomato
