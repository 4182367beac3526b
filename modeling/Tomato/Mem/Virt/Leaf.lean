import Tomato.Mem.Virt.Walk

/-!
# Changes of leaf entries

The functions that go over the pages of a range change the leaf entries of these pages,
one page after the other. `Touched` is what such a function leaves alone, and
`forPages_touched` lifts the effect on one page to the range.
-/

namespace Tomato

open Blocks Radix

/-- The pages of a range. -/
def rangeOf (base pageCount : ℕ) : Set ℕ :=
  {n | ∃ i < pageCount, pageNumber (pageAddr base i) = n}

namespace Phys

variable {d : DirectMap} {root : ℕ} {s s' s'' : Phys} {fl fl' fl'' : FreeLists}
  {live live' live'' others : Set Block} {M boot W W' : Set ℕ} {early n p v base pageCount : ℕ}

theorem rangeOf_succ (base n : ℕ) :
    rangeOf base (n + 1) = rangeOf base n ∪ {pageNumber (pageAddr base n)} := by
  ext k
  simp only [rangeOf, Set.mem_setOf_eq, Set.mem_union, Set.mem_singleton_iff]
  constructor
  · rintro ⟨i, hi, rfl⟩
    rcases Nat.lt_succ_iff_lt_or_eq.mp hi with hi | rfl
    · exact Or.inl ⟨i, hi, rfl⟩
    · exact Or.inr rfl
  · rintro (⟨i, hi, rfl⟩ | rfl)
    · exact ⟨i, by omega, rfl⟩
    · exact ⟨n, by omega, rfl⟩

theorem leafEntry_of_slot (hs : slot d s.mem root n = some p) :
    leafEntry d s.mem root n = s.mem p := by
  rw [leafEntry, hs]
  rfl

/-- No leaf entry but those of the pages in `W` changes, and no table. -/
structure Touched (d : DirectMap) (root : ℕ) (s s' : Phys) (fl' : FreeLists)
    (live' : Set Block) (M : Set ℕ) (early : ℕ) (others : Set Block) (boot W : Set ℕ) :
    Prop where
  ok : VirtOk d root s' fl' live' M early others boot
  leaf : ∀ n < 2 ^ 36, n ∉ W → leafEntry d s'.mem root n = leafEntry d s.mem root n
  table : ∀ i ≤ 3, ∀ k < 512 ^ i,
    tableAt (nextTable d s'.mem) root 512 i k = tableAt (nextTable d s.mem) root 512 i k
  content : ∀ b ∈ others, ∀ a ∈ b.cells, s'.mem a = s.mem a
  outside : ∀ a ∉ d.range, (∀ l < 16, a ≠ d.head l) → s'.mem a = s.mem a

namespace Touched

theorem refl (h : VirtOk d root s fl live M early others boot) (W : Set ℕ) :
    Touched d root s s fl live M early others boot W :=
  ⟨h, fun _ _ _ => rfl, fun _ _ _ _ => rfl, fun _ _ _ _ => rfl, fun _ _ _ => rfl⟩

theorem trans (h : Touched d root s s' fl' live' M early others boot W)
    (h' : Touched d root s' s'' fl'' live'' M early others boot W') :
    Touched d root s s'' fl'' live'' M early others boot (W ∪ W') where
  ok := h'.ok
  leaf := fun n hn hw => (h'.leaf n hn fun hc => hw (Or.inr hc)).trans
    (h.leaf n hn fun hc => hw (Or.inl hc))
  table := fun i hi k hk => (h'.table i hi k hk).trans (h.table i hi k hk)
  content := fun b hb a ha => (h'.content b hb a ha).trans (h.content b hb a ha)
  outside := fun a ha hh => (h'.outside a ha hh).trans (h.outside a ha hh)

theorem slot (h : Touched d root s s' fl' live' M early others boot W) (hn : n < 2 ^ 36) :
    Tomato.slot d s'.mem root n = Tomato.slot d s.mem root n :=
  TablesOk.slot_eq_of_tableAt_eq h.table hn

end Touched

/-- The leaf entry of one page is set. -/
theorem VirtOk.touch (h : VirtOk d root s fl live M early others (insert n boot))
    (hn : n < 2 ^ 36) (hs : slot d s.mem root n = some p)
    (hv : n ∉ boot → v ≠ 0 → block (frameOf d v) 6 ∈ live \ others ∧
      ¬ IsTable d s.mem root (frameOf d v) ∧
      ∀ n' < 2 ^ 36, n' ∉ insert n boot → leafEntry d s.mem root n' ≠ 0 →
        frameOf d (leafEntry d s.mem root n') ≠ frameOf d v) :
    Touched d root s (s.setEntry p v) fl live M early others boot {n} ∧
      leafEntry d (s.setEntry p v).mem root n = v := by
  obtain ⟨htab, hself, hother⟩ := h.tables.store_slot hn hs v
  obtain ⟨t, ht, hp⟩ := TablesOk.isTable_slot hn hs
  have hmem : p ∈ pageCells t := hp ▸ entryPtr_mem_pageCells (Nat.mod_lt _ (by decide))
  refine ⟨⟨h.setLeaf hn hs hv, hother, htab, fun b hb a ha => ?_, fun a ha hh => ?_⟩, hself⟩
  · refine Memory.store_of_ne _ _ ?_
    rintro rfl
    exact Set.disjoint_left.mp (h.table_notMem_other ht hb) hmem ha
  · refine Memory.store_of_ne _ _ ?_
    rintro rfl
    exact ha (h.tables.range t ht hmem)

/-- The new entry maps the same frame as the old one. -/
theorem VirtOk.touch_sameFrame (h : VirtOk d root s fl live M early others boot)
    (hn : n < 2 ^ 36) (hs : slot d s.mem root n = some p)
    (h0 : v ≠ 0 → s.mem p ≠ 0) (hv : v &&& PAGING_4K_ADDRESS_MASK =
      s.mem p &&& PAGING_4K_ADDRESS_MASK) :
    Touched d root s (s.setEntry p v) fl live M early others boot {n} ∧
      leafEntry d (s.setEntry p v).mem root n = v := by
  have hleaf := leafEntry_of_slot hs
  have hf : frameOf d v = frameOf d (leafEntry d s.mem root n) := by
    rw [frameOf, frameOf, hv, hleaf]
  refine (h.mono_boot (Set.subset_insert n boot)).touch hn hs fun hb hne => ?_
  have hne' : leafEntry d s.mem root n ≠ 0 := hleaf ▸ h0 hne
  rw [hf]
  obtain ⟨h1, h2⟩ := h.frame n hn hb hne'
  refine ⟨h1, h2, fun n' hn' hb' hne'' he => hb' ?_⟩
  have := h.frame_inj n' hn' (fun hc => hb' (Set.mem_insert_of_mem n hc)) hne'' n hn hb hne' he
  exact this ▸ Set.mem_insert n boot

/-- A loop over a range whose body acts on the leaf entry of its page: the effect on one
page may happen twice, if the range wraps around. -/
theorem forPages_touched {σ : Type*} (π : σ → Phys) {f : ℕ → σ → Option σ} {R : ℕ → ℕ → Prop}
    {Q : ℕ → Prop} (hR : ∀ x y z, R x y → R y z → R x z)
    (hstep : ∀ addr x y fl live, Q (pageNumber addr) →
      VirtOk d root (π x) fl live M early others boot → f addr x = some y →
      ∃ fl' live', Touched d root (π x) (π y) fl' live' M early others boot {pageNumber addr} ∧
        R (leafEntry d (π x).mem root (pageNumber addr))
          (leafEntry d (π y).mem root (pageNumber addr)))
    {x y : σ} (h : VirtOk d root (π x) fl live M early others boot)
    (hQ : ∀ n ∈ rangeOf base pageCount, Q n) (he : forPages base f pageCount x = some y) :
    ∃ fl' live', Touched d root (π x) (π y) fl' live' M early others boot
        (rangeOf base pageCount) ∧
      ∀ n ∈ rangeOf base pageCount,
        R (leafEntry d (π x).mem root n) (leafEntry d (π y).mem root n) := by
  induction pageCount generalizing y with
  | zero =>
      obtain rfl := Option.some.inj he
      exact ⟨fl, live, .refl h _, fun n hn => by simp [rangeOf] at hn⟩
  | succ k ih =>
      rw [rangeOf_succ] at hQ ⊢
      obtain ⟨z, hz, he⟩ := Option.bind_eq_some_iff.mp he
      obtain ⟨fl1, live1, ht, hr⟩ := ih (fun n hn => hQ n (Or.inl hn)) hz
      obtain ⟨fl2, live2, ht', hr'⟩ := hstep _ z y fl1 live1 (hQ _ (Or.inr rfl)) ht.ok he
      refine ⟨fl2, live2, ht.trans ht', fun n hn => ?_⟩
      have hlt : n < 2 ^ 36 := by
        rcases hn with ⟨i, -, rfl⟩ | rfl <;> exact pageNumber_lt _
      by_cases hlast : n = pageNumber (pageAddr base k)
      · subst hlast
        by_cases hbefore : pageNumber (pageAddr base k) ∈ rangeOf base k
        · exact hR _ _ _ (hr _ hbefore) hr'
        · rwa [ht.leaf _ hlt hbefore] at hr'
      · rw [ht'.leaf n hlt hlast]
        exact hr n (hn.resolve_right hlast)

end Phys

end Tomato
