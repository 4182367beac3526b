import Tomato.Boot.InitEntries

/-!
# The boot code with enough memory

A range whose pages are in one table of the last level takes at most three pages of the early
allocator, whatever its length. So the calls of the boot code return as long as there are
pages left and the entries are empty.
-/

namespace Tomato

open Radix Memmap

variable {d : DirectMap} {entries : Memmap} {root : ℕ} {b b' : Boot} {xs : List ℕ}
  {i k m n p q t virt addr phys flags : ℕ}

/-- Two pages of one table have a slot or have none. -/
theorem slot_of_table {mem : Memory} (h : slot d mem root m = some p) (hq : n / 512 = m / 512) :
    ∃ p', slot d mem root n = some p' := by
  rw [slot, Option.map_eq_some_iff] at h
  obtain ⟨t, ht, -⟩ := h
  exact ⟨entryPtr t (n % 512), by rw [slot, hq, ht, Option.map_some]⟩

/-- All the tables of a page that has a slot are there. -/
theorem walkTable_of_slot {mem : Memory} (h : slot d mem root n = some p) (hi : i ≤ 3) :
    ∃ t, Phys.walkTable d mem root n i = some t := by
  induction i with
  | zero =>
    obtain ⟨t, ht, -⟩ := slot_eq_some h
    exact ⟨t, ht⟩
  | succ i ih =>
    obtain ⟨t, ht⟩ := ih (by omega)
    rw [Phys.walkTable_succ d mem root n (by omega)] at ht
    obtain ⟨u, hu, -⟩ := Option.bind_eq_some_iff.mp ht
    exact ⟨u, hu⟩

/-- A table that is there is returned. -/
theorem earlyVirtGetNextLevel_present {j : ℕ} (h : nextTable d b.mem t j = some q) :
    b.earlyVirtGetNextLevel d entries (entryPtr t j) = some (q, b) := by
  rw [nextTable] at h
  split at h
  · simp at h
  · rename_i hp
    simp [Boot.earlyVirtGetNextLevel, hp, Option.some.inj h]

/-- The walk to a page that has a slot changes nothing. -/
theorem earlyVirtWalk_of_slot (hi : i ≤ 3)
    (ht : Phys.walkTable d b.mem root (pageNumber virt) i = some t)
    (hs : slot d b.mem root (pageNumber virt) = some p) :
    Boot.earlyVirtWalk d entries virt i t b = some (p, b) := by
  induction i generalizing t with
  | zero =>
      have hs' : slot d b.mem root (pageNumber virt) =
          (Phys.walkTable d b.mem root (pageNumber virt) 0).map
            fun t => entryPtr t (pageNumber virt % 512) := rfl
      rw [hs', ht, Option.map_some, Option.some.injEq] at hs
      rw [Boot.earlyVirtWalk, pagingIndex_eq virt (by omega), ← hs]
      simp
  | succ i ih =>
      obtain ⟨u, hu⟩ := walkTable_of_slot hs (show i ≤ 3 by omega)
      have hnext := hu
      rw [Phys.walkTable_succ d b.mem root _ (by omega), ht, Option.bind_some] at hnext
      rw [Boot.earlyVirtWalk, pagingIndex_eq virt hi, earlyVirtGetNextLevel_present hnext]
      exact ih (by omega) hu

namespace EarlyOk

/-- A page whose table is there is mapped without a page for a table. -/
theorem earlyVirtMapPage_of_slot (h : EarlyOk d entries root b xs)
    (hs : slot d b.mem root (pageNumber addr) = some p)
    (h0 : leafEntry d b.mem root (pageNumber addr) = 0) (phys flags : ℕ) :
    ∃ b', Boot.earlyVirtMapPage d entries root flags addr (phys, b) =
        some ((phys + PAGE_SIZE) % 2 ^ 64, b') ∧
      EarlyTouched d entries root b b' xs {pageNumber addr} ∧
      leafEntry d b'.mem root (pageNumber addr) ≠ 0 := by
  have hw : Boot.earlyVirtGetPte d entries root b addr = some (p, b) :=
    earlyVirtWalk_of_slot le_rfl (Phys.walkTable_top (s := b.clients.phys) _) hs
  have hzero : b.mem p = 0 := by simpa [leafEntry, hs] using h0
  obtain ⟨ht, hself⟩ := h.touch (pageNumber_lt addr) hs (Boot.mappedEntry phys flags)
  refine ⟨_, ?_, ht, by rw [hself]; exact mappedEntry_ne_zero⟩
  simp [Boot.earlyVirtMapPage, hw, hzero]

/-- A range in one table is mapped with at most three pages for tables. -/
theorem earlyVirtMap_isSome (h : EarlyOk d entries root b xs) (hxs : 3 ≤ xs.length)
    (hlen : n ≤ 2 ^ 36) (hq : ∀ i < n, pageNumber (pageAddr virt i) / 512 = q)
    (h0 : ∀ i < n, leafEntry d b.mem root (pageNumber (pageAddr virt i)) = 0)
    (phys flags : ℕ) :
    ∃ b' xs', b.earlyVirtMap d entries root virt phys n flags = some b' ∧
      EarlyTouched d entries root b b' xs' (rangeOf virt n) ∧ xs.length ≤ xs'.length + 3 := by
  suffices hloop : ∃ r xs', forPages virt (Boot.earlyVirtMapPage d entries root flags) n (phys, b) =
      some r ∧ EarlyTouched d entries root b r.2 xs' (rangeOf virt n) ∧
        xs.length ≤ xs'.length + 3 ∧
        ∀ i < n, leafEntry d r.2.mem root (pageNumber (pageAddr virt i)) ≠ 0 by
    obtain ⟨r, xs', e, ht, hle, -⟩ := hloop
    exact ⟨r.2, xs', by rw [Boot.earlyVirtMap, e, Option.map_some], ht, hle⟩
  induction n with
  | zero => exact ⟨(phys, b), xs, rfl, .refl h _, by omega, by simp⟩
  | succ n ih =>
    obtain ⟨⟨phys1, b1⟩, xs1, e, ht, hle, hne⟩ := ih (by omega) (fun i hi => hq i (by omega))
      fun i hi => h0 i (by omega)
    have hnew : pageNumber (pageAddr virt n) ∉ rangeOf virt n :=
      pageNumber_notMem hlen (Nat.lt_succ_self n)
    have hzero : leafEntry d b1.mem root (pageNumber (pageAddr virt n)) = 0 :=
      (ht.leaf _ (pageNumber_lt _) hnew).trans (h0 n (Nat.lt_succ_self n))
    rw [Phys.rangeOf_succ]
    rcases Nat.eq_zero_or_pos n with rfl | hpos
    · -- the first page may need all its tables
      obtain ⟨rfl, rfl⟩ := Prod.mk.inj (Option.some.inj e)
      obtain ⟨r, er⟩ := h.earlyVirtMapPage_isSome hxs hzero phys flags
      obtain ⟨-, -, hval, xs2, ht2, hle2⟩ := h.earlyVirtMapPage (show _ = some (r.1, r.2) from er)
      refine ⟨r, xs2, by rw [forPages, e, Option.bind_some, er], ?_, hle2, fun i hi => ?_⟩
      · exact ht2.mono Set.subset_union_right
      · obtain rfl : i = 0 := by omega
        rw [hval]
        exact mappedEntry_ne_zero
    · -- the others use the tables of the first one
      have hlast := hne (n - 1) (by omega)
      have hslot : ∃ p, slot d b1.mem root (pageNumber (pageAddr virt (n - 1))) = some p := by
        cases hs : slot d b1.mem root (pageNumber (pageAddr virt (n - 1))) with
        | some p => exact ⟨p, rfl⟩
        | none => exact absurd (by simp [leafEntry, hs]) hlast
      obtain ⟨p, hp⟩ := hslot
      obtain ⟨p', hp'⟩ := slot_of_table hp
        ((hq n (Nat.lt_succ_self n)).trans (hq (n - 1) (by omega)).symm)
      obtain ⟨b2, er, ht2, hne2⟩ := ht.ok.earlyVirtMapPage_of_slot hp' hzero phys1 flags
      refine ⟨_, xs1, by rw [forPages, e, Option.bind_some, er], ht.trans ht2, hle, fun i hi => ?_⟩
      rcases Nat.lt_succ_iff_lt_or_eq.mp hi with hi | rfl
      · rw [ht2.leaf _ (pageNumber_lt _) fun hc => hnew (hc ▸ mem_rangeOf hi)]
        exact hne i hi
      · exact hne2

/-- A page of the bitmap is mapped with at most four pages. -/
theorem earlyMapBitmapPage_isSome (h : EarlyOk d entries root b xs) (hxs : 4 ≤ xs.length)
    (addr : ℕ) : ∃ b', b.earlyMapBitmapPage d entries root addr = some b' := by
  rcases h.getPte addr with ⟨-, hlt⟩ | ⟨p, b1, xs1, e, ht, hle, -⟩
  · omega
  by_cases hp : b1.mem p &&& IA32_PG_P ≠ 0
  · exact ⟨b1, by simp [Boot.earlyMapBitmapPage, e, hp]⟩
  cases xs1 with
  | nil => simp at hle; omega
  | cons x xs2 =>
    obtain ⟨b2, e2, -⟩ := ht.ok.alloc
    rw [not_ne_iff] at hp
    refine ⟨b2.setEntry p (d.directToPhys (d.physToDirect x) ||| Boot.bitmapFlags), ?_⟩
    simp only [Boot.earlyMapBitmapPage, e, Option.bind_eq_bind, Option.bind_some, hp, ne_eq,
      not_true_eq_false, if_false, e2]

end EarlyOk

end Tomato
