import Tomato.Mem.Virt.Run

/-!
# What a range costs

The functions that go over a range, counted page by page: how many of the pages have an
entry, which frames are behind the entries, and what that does to the counters.
-/

namespace Tomato

open Blocks Radix Transition

/-- The number of the pages of a range with a property of their entries. -/
def countPages (f : ℕ → ℕ) (p : ℕ → Prop) [DecidablePred p] (base pageCount : ℕ) : ℕ :=
  Nat.count (fun i => p (f (pageNumber (pageAddr base i)))) pageCount

/-- The pages without an entry. -/
def unpopulated (f : ℕ → ℕ) (base pageCount : ℕ) : ℕ := countPages f (· = 0) base pageCount

/-- The pages with an entry. -/
def populated (f : ℕ → ℕ) (base pageCount : ℕ) : ℕ := countPages f (· ≠ 0) base pageCount

/-- The frames behind the entries of some pages. -/
def framesOf (d : DirectMap) (f : ℕ → ℕ) (W : Set ℕ) : Set Block :=
  {b | ∃ n ∈ W, f n ≠ 0 ∧ b = block (frameOf d (f n)) 6}

variable {f g : ℕ → ℕ} {base pageCount i j k n : ℕ} {d : DirectMap}

theorem pageNumber_pageAddr (base i : ℕ) :
    pageNumber (pageAddr base i) = (base / 4096 + i) % 2 ^ 36 := by
  have hsize : PAGE_SIZE = 4096 := rfl
  rw [pageNumber, pageAddr, hsize]
  omega

theorem pageNumber_inj (hk : pageCount ≤ 2 ^ 36) (hi : i < pageCount) (hj : j < pageCount)
    (h : pageNumber (pageAddr base i) = pageNumber (pageAddr base j)) : i = j := by
  rw [pageNumber_pageAddr, pageNumber_pageAddr] at h
  omega

theorem pageNumber_notMem (hk : pageCount ≤ 2 ^ 36) (hi : i < pageCount) :
    pageNumber (pageAddr base i) ∉ rangeOf base i := by
  rintro ⟨j, hj, he⟩
  have := pageNumber_inj hk (by omega) hi he
  omega

theorem lt_of_mem_rangeOf (hn : n ∈ rangeOf base pageCount) : n < 2 ^ 36 := by
  obtain ⟨i, -, rfl⟩ := hn
  exact pageNumber_lt _

theorem mem_rangeOf (hi : i < pageCount) :
    pageNumber (pageAddr base i) ∈ rangeOf base pageCount := ⟨i, hi, rfl⟩

theorem rangeOf_mono (h : i ≤ j) : rangeOf base i ⊆ rangeOf base j := by
  rintro n ⟨k, hk, rfl⟩
  exact ⟨k, hk.trans_le h, rfl⟩

section

variable {p q : ℕ → Prop} [DecidablePred p] [DecidablePred q]

theorem countPages_congr (h : ∀ n ∈ rangeOf base pageCount, p (f n) ↔ q (g n)) :
    countPages f p base pageCount = countPages g q base pageCount := by
  induction pageCount with
  | zero => rfl
  | succ k ih =>
      have ih := ih fun n hn => h n (rangeOf_mono (Nat.le_succ k) hn)
      have hk := h _ (mem_rangeOf (Nat.lt_succ_self k))
      simp only [countPages, Nat.count_succ] at ih ⊢
      rw [ih]
      simp only [hk]

theorem finite_pages {W : Set ℕ} (h : ∀ n ∈ W, n < 2 ^ 36) : W.Finite :=
  (Set.finite_Iio (2 ^ 36)).subset h

/-- The pages of a range are all different ones. -/
theorem countPages_eq_ncard (hk : pageCount ≤ 2 ^ 36) : countPages f p base pageCount =
    {n | n ∈ rangeOf base pageCount ∧ p (f n)}.ncard := by
  induction pageCount with
  | zero => simp [countPages, rangeOf]
  | succ k ih =>
      have ih := ih (by omega)
      obtain ⟨n, hn⟩ : ∃ n, n = pageNumber (pageAddr base k) := ⟨_, rfl⟩
      have hnew : n ∉ rangeOf base k := hn ▸ pageNumber_notMem hk (Nat.lt_succ_self k)
      have hfin : {m | m ∈ rangeOf base k ∧ p (f m)}.Finite :=
        finite_pages fun m hm => lt_of_mem_rangeOf hm.1
      rw [countPages] at ih ⊢
      rw [Nat.count_succ, ih, ← hn]
      by_cases hp : p (f n)
      · rw [if_pos hp, ← Set.ncard_insert_of_notMem (fun hc => hnew hc.1) hfin]
        congr 1
        ext m
        simp only [Set.mem_insert_iff, Set.mem_ofPred_eq, Phys.rangeOf_succ, ← hn, Set.mem_union,
          Set.mem_singleton_iff]
        constructor
        · rintro (rfl | ⟨h1, h2⟩)
          · exact ⟨Or.inr rfl, hp⟩
          · exact ⟨Or.inl h1, h2⟩
        · rintro ⟨h1 | rfl, h2⟩
          · exact Or.inr ⟨h1, h2⟩
          · exact Or.inl rfl
      · rw [if_neg hp, Nat.add_zero]
        congr 1
        ext m
        simp only [Set.mem_ofPred_eq, Phys.rangeOf_succ, ← hn, Set.mem_union, Set.mem_singleton_iff]
        constructor
        · exact fun h => ⟨Or.inl h.1, h.2⟩
        · rintro ⟨h1 | rfl, h2⟩
          · exact ⟨h1, h2⟩
          · exact absurd h2 hp

theorem ncard_rangeOf (hk : pageCount ≤ 2 ^ 36) : (rangeOf base pageCount).ncard = pageCount := by
  have h : countPages (fun _ => 0) (fun _ => True) base pageCount = _ := countPages_eq_ncard hk
  simpa [countPages] using h.symm

end

theorem populated_succ (f : ℕ → ℕ) (base k : ℕ) : populated f base (k + 1) =
    populated f base k + if f (pageNumber (pageAddr base k)) ≠ 0 then 1 else 0 := by
  rw [populated, countPages, Nat.count_succ]
  rfl

theorem unpopulated_succ (f : ℕ → ℕ) (base k : ℕ) : unpopulated f base (k + 1) =
    unpopulated f base k + if f (pageNumber (pageAddr base k)) = 0 then 1 else 0 := by
  rw [unpopulated, countPages, Nat.count_succ]
  rfl

/-- A page has an entry or it has none. -/
theorem populated_add_unpopulated (f : ℕ → ℕ) (base pageCount : ℕ) :
    populated f base pageCount + unpopulated f base pageCount = pageCount := by
  induction pageCount with
  | zero => rfl
  | succ k ih =>
      rw [populated_succ, unpopulated_succ]
      by_cases h : f (pageNumber (pageAddr base k)) = 0 <;> simp only [h, ne_eq, not_true_eq_false,
        not_false_eq_true, if_true, if_false] <;> omega

theorem framesOf_union (f : ℕ → ℕ) (W W' : Set ℕ) :
    framesOf d f (W ∪ W') = framesOf d f W ∪ framesOf d f W' := by
  ext b
  simp only [framesOf, Set.mem_ofPred_eq, Set.mem_union]
  constructor
  · rintro ⟨n, hn | hn, h⟩
    · exact Or.inl ⟨n, hn, h⟩
    · exact Or.inr ⟨n, hn, h⟩
  · rintro (⟨n, hn, h⟩ | ⟨n, hn, h⟩)
    · exact ⟨n, Or.inl hn, h⟩
    · exact ⟨n, Or.inr hn, h⟩

theorem framesOf_singleton (f : ℕ → ℕ) (n : ℕ) :
    framesOf d f {n} = if f n ≠ 0 then {block (frameOf d (f n)) 6} else ∅ := by
  ext b
  by_cases h : f n = 0 <;> simp [framesOf, h]

theorem framesOf_congr {W : Set ℕ} (h : ∀ n ∈ W, f n = g n) : framesOf d f W = framesOf d g W := by
  ext b
  simp only [framesOf, Set.mem_ofPred_eq]
  exact exists_congr fun n => and_congr_right fun hn => by rw [h n hn]

/-- The rule for a loop over a range, with an invariant for each of its rounds. -/
theorem forPages_run {σ : Type*} {F : ℕ → σ → Option σ} {I : ℕ → σ → Prop} {x : σ} (h0 : I 0 x)
    (hstep : ∀ i < pageCount, ∀ x, I i x → ∃ y, F (pageAddr base i) x = some y ∧ I (i + 1) y) :
    ∃ y, forPages base F pageCount x = some y ∧ I pageCount y := by
  induction pageCount with
  | zero => exact ⟨x, rfl, h0⟩
  | succ k ih =>
      obtain ⟨y, hy, hI⟩ := ih fun i hi => hstep i (by omega)
      obtain ⟨z, hz, hI'⟩ := hstep k (Nat.lt_succ_self k) y hI
      exact ⟨z, by rw [forPages, hy, Option.bind_some, hz], hI'⟩

namespace Phys

variable {root : ℕ} {s s' : Phys} {fl : FreeLists} {live others : Set Block} {M boot : Set ℕ}
  {early : ℕ} {globalPage : Bool} {a b : Accounting}

theorem uncommitted_add (a : Accounting) (n k : ℕ) :
    uncommitted (uncommitted a n false) k false = uncommitted a (n + k) false := by
  simp only [uncommitted, Bool.false_eq_true, if_false]
  congr 1 <;> omega

/-- The first loop of `virt_free` counts the empty entries. -/
theorem VirtOk.virtInvalidate_run (h : VirtOk d root s fl live M early others boot)
    (hk : pageCount ≤ 2 ^ 36)
    (hslot : ∀ n ∈ rangeOf base pageCount, ∃ p, slot d s.mem root n = some p)
    (hg : ∀ n ∈ rangeOf base pageCount, leafEntry d s.mem root n &&& IA32_PG_G = 0) :
    ∃ s', Phys.virtInvalidate d root s base pageCount =
        some (unpopulated (leafEntry d s.mem root) base pageCount, s') ∧ s'.acct = s.acct ∧
      Touched d root s s' fl live M early others boot (rangeOf base pageCount) ∧
      ∀ n ∈ rangeOf base pageCount,
        leafEntry d s'.mem root n = leafEntry d s.mem root n &&& PAGING_4K_ADDRESS_MASK := by
  obtain ⟨f, hf⟩ : ∃ f, f = leafEntry d s.mem root := ⟨_, rfl⟩
  rw [← hf] at hg ⊢
  have hrun : ∃ y, Phys.virtInvalidate d root s base pageCount = some y ∧
      (y.1 = unpopulated f base pageCount ∧ y.2.acct = s.acct ∧
        Touched d root s y.2 fl live M early others boot (rangeOf base pageCount) ∧
        ∀ n ∈ rangeOf base pageCount,
          leafEntry d y.2.mem root n = f n &&& PAGING_4K_ADDRESS_MASK) := by
    refine forPages_run (I := fun i (y : ℕ × Phys) => y.1 = unpopulated f base i ∧
      y.2.acct = s.acct ∧ Touched d root s y.2 fl live M early others boot (rangeOf base i) ∧
      ∀ n ∈ rangeOf base i, leafEntry d y.2.mem root n = f n &&& PAGING_4K_ADDRESS_MASK)
      ⟨rfl, rfl, .refl h _, fun n hn => by simp [rangeOf] at hn⟩ ?_
    rintro i hi ⟨c, x⟩ ⟨rfl, hacct, ht, hall⟩
    obtain ⟨n, hn⟩ : ∃ n, n = pageNumber (pageAddr base i) := ⟨_, rfl⟩
    have hlt : n < 2 ^ 36 := hn ▸ pageNumber_lt _
    have hmem : n ∈ rangeOf base pageCount := hn ▸ mem_rangeOf hi
    have hnew : n ∉ rangeOf base i := hn ▸ pageNumber_notMem hk hi
    obtain ⟨p, hp⟩ := hslot n hmem
    have hs : slot d x.mem root n = some p := (ht.slot hlt).trans hp
    have hv : x.mem p = f n := by
      rw [← leafEntry_of_slot hs, ht.leaf n hlt hnew, hf]
    have hfind : virtFindPte d root x (pageAddr base i) = some (p, x) := by
      rw [virtFindPte_eq, ← hn, hs, Option.map_some]
    have hstep : ∀ y, Touched d root x y fl live M early others boot {n} →
        leafEntry d y.mem root n = f n &&& PAGING_4K_ADDRESS_MASK → y.acct = s.acct →
        y.acct = s.acct ∧
          Touched d root s y fl live M early others boot (rangeOf base (i + 1)) ∧
          ∀ n ∈ rangeOf base (i + 1),
            leafEntry d y.mem root n = f n &&& PAGING_4K_ADDRESS_MASK := by
      intro y hty hself ha
      rw [rangeOf_succ, ← hn]
      refine ⟨ha, ht.trans hty, fun n' hn' => ?_⟩
      by_cases hne : n' = n
      · rw [hne, hself]
      · have hn' := hn'.resolve_right hne
        rw [hty.leaf n' (lt_of_mem_rangeOf hn') hne, hall n' hn']
    simp only [hfind, Option.bind_eq_bind, Option.bind_some, hv, hg n hmem, ne_eq,
      not_true_eq_false, if_false]
    by_cases h0 : f n = 0
    · rw [if_neg (by simpa using h0)]
      refine ⟨_, rfl, ?_, hstep x (.refl ht.ok _) ?_ hacct⟩
      · rw [unpopulated_succ, ← hn, if_pos h0]
      · rw [leafEntry_of_slot hs, hv, h0, Nat.zero_and]
    · rw [if_pos (by simpa using h0)]
      obtain ⟨ht1, hself⟩ := ht.ok.touch_sameFrame (v := f n &&& PAGING_4K_ADDRESS_MASK) hlt hs
        (fun _ hc => h0 (hv ▸ hc)) (by rw [hv, Nat.and_assoc, Nat.and_self])
      refine ⟨_, rfl, ?_, hstep _ ht1 hself hacct⟩
      rw [unpopulated_succ, ← hn, if_neg h0, Nat.add_zero]
  obtain ⟨⟨c, s'⟩, e, rfl, hacct, ht, hall⟩ := hrun
  exact ⟨s', e, hacct, ht, hall⟩

/-- The second loop of `virt_free` gives back the frames that are behind the entries. -/
theorem VirtOk.virtRelease_run (h : VirtOk d root s fl live M early others boot)
    (hk : pageCount ≤ 2 ^ 36)
    (hslot : ∀ n ∈ rangeOf base pageCount, ∃ p, slot d s.mem root n = some p)
    (hmask : ∀ n ∈ rangeOf base pageCount,
      leafEntry d s.mem root n &&& PAGING_4K_ADDRESS_MASK = leafEntry d s.mem root n)
    (hb : ∀ n ∈ rangeOf base pageCount, n ∉ boot) :
    ∃ s' fl', Phys.virtRelease d root s base pageCount = some s' ∧
      Touched d root s s' fl'
        (live \ framesOf d (leafEntry d s.mem root) (rangeOf base pageCount)) M early others boot
        (rangeOf base pageCount) ∧
      (∀ n ∈ rangeOf base pageCount, leafEntry d s'.mem root n = 0) ∧
      populated (leafEntry d s.mem root) base pageCount ≤ s.acct.committed ∧
      s'.acct = uncommitted s.acct (populated (leafEntry d s.mem root) base pageCount) false := by
  obtain ⟨f, hf⟩ : ∃ f, f = leafEntry d s.mem root := ⟨_, rfl⟩
  rw [← hf] at hmask ⊢
  have hrun : ∃ y, Phys.virtRelease d root s base pageCount = some y ∧ ∃ fl',
      Touched d root s y fl' (live \ framesOf d f (rangeOf base pageCount)) M early others boot
        (rangeOf base pageCount) ∧
      (∀ n ∈ rangeOf base pageCount, leafEntry d y.mem root n = 0) ∧
      populated f base pageCount ≤ s.acct.committed ∧
      y.acct = uncommitted s.acct (populated f base pageCount) false := by
    refine forPages_run (I := fun i y => ∃ fl',
      Touched d root s y fl' (live \ framesOf d f (rangeOf base i)) M early others boot
        (rangeOf base i) ∧
      (∀ n ∈ rangeOf base i, leafEntry d y.mem root n = 0) ∧
      populated f base i ≤ s.acct.committed ∧
      y.acct = uncommitted s.acct (populated f base i) false)
      ⟨fl, ?_, fun n hn => by simp [rangeOf] at hn, Nat.zero_le _, rfl⟩ ?_
    · have hempty : framesOf d f (rangeOf base 0) = ∅ := by
        ext b
        simp [framesOf, rangeOf]
      rw [hempty, Set.sdiff_empty]
      exact .refl h _
    rintro i hi x ⟨fl1, ht, hall, hle, hacct⟩
    obtain ⟨n, hn⟩ : ∃ n, n = pageNumber (pageAddr base i) := ⟨_, rfl⟩
    have hlt : n < 2 ^ 36 := hn ▸ pageNumber_lt _
    have hmem : n ∈ rangeOf base pageCount := hn ▸ mem_rangeOf hi
    have hnew : n ∉ rangeOf base i := hn ▸ pageNumber_notMem hk hi
    obtain ⟨p, hp⟩ := hslot n hmem
    have hs : slot d x.mem root n = some p := (ht.slot hlt).trans hp
    have hv : x.mem p = f n := by
      rw [← leafEntry_of_slot hs, ht.leaf n hlt hnew, hf]
    have hfind : virtFindPte d root x (pageAddr base i) = some (p, x) := by
      rw [virtFindPte_eq, ← hn, hs, Option.map_some]
    have hall' : ∀ y : Phys, (∀ n' < 2 ^ 36, n' ∉ ({n} : Set ℕ) →
        leafEntry d y.mem root n' = leafEntry d x.mem root n') → leafEntry d y.mem root n = 0 →
        ∀ n' ∈ rangeOf base i ∪ {n}, leafEntry d y.mem root n' = 0 := by
      intro y hleaf hself n' hn'
      by_cases hne : n' = n
      · rw [hne, hself]
      · have hn' := hn'.resolve_right hne
        rw [hleaf n' (lt_of_mem_rangeOf hn') hne, hall n' hn']
    simp only [hfind, Option.bind_eq_bind, Option.bind_some, hv, hmask n hmem, ne_eq,
      not_true_eq_false, if_false]
    by_cases h0 : f n = 0
    · rw [if_neg (by simpa using h0)]
      have hself : leafEntry d x.mem root n = 0 := by rw [leafEntry_of_slot hs, hv, h0]
      refine ⟨x, rfl, fl1, ?_, ?_, ?_, ?_⟩
      · rw [rangeOf_succ, ← hn, framesOf_union, framesOf_singleton, if_neg (by simpa using h0),
          Set.union_empty]
        exact ht.mono Set.subset_union_left
      · rw [rangeOf_succ, ← hn]
        exact hall' x (fun _ _ _ => rfl) hself
      · rwa [populated_succ, ← hn, if_neg (by simpa using h0)]
      · rwa [populated_succ, ← hn, if_neg (by simpa using h0)]
    · rw [if_pos (by simpa using h0)]
      obtain ⟨s2, fl2, e, ht2, hself, hone, hacct2⟩ := ht.ok.releasePage hlt (hb n hmem) hs
        (by rwa [hv])
      have hframe : d.physToDirect (f n) = frameOf d (x.mem p) := by
        rw [hv, frameOf, hmask n hmem]
      refine ⟨s2.setEntry p 0, by rw [hframe, e, Option.map_some], fl2, ?_, ?_, ?_, ?_⟩
      · rw [rangeOf_succ, ← hn, framesOf_union, framesOf_singleton, if_pos (by simpa using h0),
          ← Set.sdiff_sdiff, ← hv]
        exact ht.trans ht2
      · rw [rangeOf_succ, ← hn]
        exact hall' _ ht2.leaf hself
      · rw [populated_succ, ← hn, if_pos (by simpa using h0)]
        rw [hacct] at hone
        simp only [uncommitted, Bool.false_eq_true, if_false] at hone
        omega
      · rw [populated_succ, ← hn, if_pos (by simpa using h0), ← uncommitted_add, ← hacct]
        exact hacct2
  obtain ⟨s', e, fl', ht, hall, hle, hacct⟩ := hrun
  exact ⟨s', fl', e, ht, hall, hle, hacct⟩

/-- A frame behind an entry is not the first one of the memory. -/
theorem VirtOk.masked_ne_zero (h : VirtOk d root s fl live M early others boot) (h0 : d.base ∉ M)
    (hn : n < 2 ^ 36) (hb : n ∉ boot) (hne : leafEntry d s.mem root n ≠ 0) :
    leafEntry d s.mem root n &&& PAGING_4K_ADDRESS_MASK ≠ 0 := by
  intro hc
  have hlive := (h.frame n hn hb hne).1.1
  refine h0 (h.ok.inv.tiling.subset (Or.inl (Or.inr hlive)) ?_)
  have hframe : frameOf d (leafEntry d s.mem root n) = d.base := by
    rw [frameOf, hc, DirectMap.physToDirect, Nat.add_zero]
  rw [hframe, page_cells, pageCells, Set.mem_Ico]
  omega

/-- The counters after a range was freed. -/
def freedRange (a : Accounting) (f : ℕ → ℕ) (base pageCount : ℕ) : Accounting :=
  { a with
    available := a.available + pageCount
    reserved := a.reserved - unpopulated f base pageCount
    committed := a.committed - populated f base pageCount }

/-- `virt_free` of a range whose pages are no boot pages and are not pinned. -/
theorem VirtOk.virtFree_run (h : VirtOk d root s fl live M early others boot)
    (h0 : d.base ∉ M) (hk : pageCount ≤ 2 ^ 36)
    (hslot : ∀ n ∈ rangeOf base pageCount, ∃ p, slot d s.mem root n = some p)
    (hg : ∀ n ∈ rangeOf base pageCount, leafEntry d s.mem root n &&& IA32_PG_G = 0)
    (hb : ∀ n ∈ rangeOf base pageCount, n ∉ boot) :
    (s.acct.reserved < unpopulated (leafEntry d s.mem root) base pageCount ∧
      Phys.virtFree d root s base pageCount = none) ∨
    (unpopulated (leafEntry d s.mem root) base pageCount ≤ s.acct.reserved ∧
      ∃ s' fl', Phys.virtFree d root s base pageCount = some s' ∧
        Touched d root s s' fl'
          (live \ framesOf d (leafEntry d s.mem root) (rangeOf base pageCount)) M early others boot
          (rangeOf base pageCount) ∧
        (∀ n ∈ rangeOf base pageCount, leafEntry d s'.mem root n = 0) ∧
        populated (leafEntry d s.mem root) base pageCount ≤ s.acct.committed ∧
        s'.acct = freedRange s.acct (leafEntry d s.mem root) base pageCount) := by
  obtain ⟨f, hf⟩ : ∃ f, f = leafEntry d s.mem root := ⟨_, rfl⟩
  obtain ⟨s1, e1, hacct1, ht1, hall1⟩ := h.virtInvalidate_run hk hslot hg
  rw [← hf] at e1 hall1 ⊢
  by_cases hle : unpopulated f base pageCount ≤ s.acct.reserved
  swap
  · have hnone : s1.acct.memAcctUnreserve (unpopulated f base pageCount) = none := by
      rw [hacct1, Accounting.memAcctUnreserve, Accounting.checkedAtomicSub, if_neg hle,
        Option.map_none]
    refine Or.inl ⟨by omega, ?_⟩
    simp only [Phys.virtFree, e1, Option.bind_eq_bind, Option.bind_some, hnone, Option.bind_none]
  obtain ⟨a, ha⟩ : ∃ a, s1.acct.memAcctUnreserve (unpopulated f base pageCount) = some a :=
    ⟨_, Accounting.memAcctUnreserve_eq_some.mpr ⟨hacct1 ▸ hle, rfl⟩⟩
  have h2 : VirtOk d root { s1 with acct := a } fl live M early others boot :=
    ht1.ok.congr_acct (ht1.ok.ok.memAcctUnreserve ha)
  obtain ⟨g, hgdef⟩ : ∃ g, g = leafEntry d s1.mem root := ⟨_, rfl⟩
  have hgf : ∀ n ∈ rangeOf base pageCount, g n = f n &&& PAGING_4K_ADDRESS_MASK :=
    fun n hn => hgdef ▸ hall1 n hn
  have hzero : ∀ n ∈ rangeOf base pageCount, g n = 0 ↔ f n = 0 := by
    intro n hn
    rw [hgf n hn]
    refine ⟨fun hc => by_contra fun hne => ?_, fun hc => by rw [hc, Nat.zero_and]⟩
    rw [hf] at hne hc
    exact h.masked_ne_zero h0 (lt_of_mem_rangeOf hn) (hb n hn) hne hc
  have hframes : framesOf d g (rangeOf base pageCount) = framesOf d f (rangeOf base pageCount) := by
    ext b
    simp only [framesOf, Set.mem_ofPred_eq]
    refine exists_congr fun n => and_congr_right fun hn => ?_
    rw [Ne, hzero n hn, hgf n hn, frameOf, frameOf, Nat.and_assoc, Nat.and_self]
  obtain ⟨s3, fl3, e3, ht3, hall3, hcom3, hacct3⟩ := h2.virtRelease_run hk
    (fun n hn => by
      obtain ⟨p, hp⟩ := hslot n hn
      exact ⟨p, (ht1.slot (lt_of_mem_rangeOf hn)).trans hp⟩)
    (fun n hn => by
      change leafEntry d s1.mem root n &&& _ = leafEntry d s1.mem root n
      rw [hall1 n hn, Nat.and_assoc, Nat.and_self]) hb
  have hleaf2 : leafEntry d ({ s1 with acct := a } : Phys).mem root = g := hgdef.symm
  have hpop : populated g base pageCount = populated f base pageCount :=
    countPages_congr fun n hn => not_congr (hzero n hn)
  rw [hleaf2] at ht3 hcom3 hacct3
  rw [hframes] at ht3
  rw [hpop] at hcom3 hacct3
  obtain ⟨-, rfl⟩ := Accounting.memAcctUnreserve_eq_some.mp ha
  refine Or.inr ⟨hle, s3, fl3, ?_, ⟨ht3.ok, fun n hn hw => ?_, fun i hi k hk => ?_,
    fun b hb a ha => ?_, fun a ha hh => ?_⟩, hall3, ?_, ?_⟩
  · simp only [Phys.virtFree, e1, ha, Option.bind_eq_bind, Option.bind_some]
    exact e3
  · exact (ht3.leaf n hn hw).trans (ht1.leaf n hn hw)
  · exact (ht3.table i hi k hk).trans (ht1.table i hi k hk)
  · exact (ht3.content b hb a ha).trans (ht1.content b hb a ha)
  · exact (ht3.outside a ha hh).trans (ht1.outside a ha hh)
  · rwa [← hacct1]
  · have hsum := populated_add_unpopulated f base pageCount
    rw [hacct3, freedRange, uncommitted, if_neg (by simp), hacct1]
    congr 1
    simp only
    omega

/-- The counters after a range was populated. -/
def populatedRange (a : Accounting) (f : ℕ → ℕ) (base pageCount : ℕ) : Accounting :=
  { a with
    reserved := a.reserved - unpopulated f base pageCount
    committed := a.committed + unpopulated f base pageCount }

/-- `virt_populate` takes a page from the reservation for every page without an entry. -/
theorem VirtOk.virtPopulate_run (h : VirtOk d root s fl live M early others boot)
    (globalPage : Bool) (hk : pageCount ≤ 2 ^ 36)
    (hslot : ∀ n ∈ rangeOf base pageCount, ∃ p, slot d s.mem root n = some p)
    (hP : ∀ n ∈ rangeOf base pageCount, leafEntry d s.mem root n ≠ 0 →
      leafEntry d s.mem root n &&& IA32_PG_P ≠ 0)
    (hres : unpopulated (leafEntry d s.mem root) base pageCount ≤ s.acct.reserved) :
    ∃ s' fl' live', Phys.virtPopulate d root s base pageCount globalPage = some s' ∧
      Touched d root s s' fl' live' M early others boot (rangeOf base pageCount) ∧
      (∀ n ∈ rangeOf base pageCount, Populated d globalPage (virtIsUserAddress base)
        (leafEntry d s.mem root n) (leafEntry d s'.mem root n)) ∧
      s'.acct = populatedRange s.acct (leafEntry d s.mem root) base pageCount := by
  obtain ⟨f, hf⟩ : ∃ f, f = leafEntry d s.mem root := ⟨_, rfl⟩
  rw [← hf] at hP hres ⊢
  have hmono : ∀ i ≤ pageCount, unpopulated f base i ≤ s.acct.reserved := fun i hi =>
    (Nat.count_monotone _ hi).trans hres
  have hrun : ∃ y, Phys.virtPopulate d root s base pageCount globalPage = some y ∧ ∃ fl' live',
      Touched d root s y fl' live' M early others boot (rangeOf base pageCount) ∧
      (∀ n ∈ rangeOf base pageCount, Populated d globalPage (virtIsUserAddress base) (f n)
        (leafEntry d y.mem root n)) ∧
      y.acct = populatedRange s.acct f base pageCount := by
    refine forPages_run (I := fun i y => ∃ fl' live',
      Touched d root s y fl' live' M early others boot (rangeOf base i) ∧
      (∀ n ∈ rangeOf base i, Populated d globalPage (virtIsUserAddress base) (f n)
        (leafEntry d y.mem root n)) ∧
      y.acct = populatedRange s.acct f base i)
      ⟨fl, live, .refl h _, fun n hn => by simp [rangeOf] at hn, rfl⟩ ?_
    rintro i hi x ⟨fl1, live1, ht, hall, hacct⟩
    obtain ⟨n, hn⟩ : ∃ n, n = pageNumber (pageAddr base i) := ⟨_, rfl⟩
    have hlt : n < 2 ^ 36 := hn ▸ pageNumber_lt _
    have hmem : n ∈ rangeOf base pageCount := hn ▸ mem_rangeOf hi
    have hnew : n ∉ rangeOf base i := hn ▸ pageNumber_notMem hk hi
    obtain ⟨p, hp⟩ := hslot n hmem
    have hs : slot d x.mem root n = some p := (ht.slot hlt).trans hp
    have hv : x.mem p = f n := by
      rw [← leafEntry_of_slot hs, ht.leaf n hlt hnew, hf]
    have hfind : virtFindPte d root x (pageAddr base i) = some (p, x) := by
      rw [virtFindPte_eq, ← hn, hs, Option.map_some]
    have hall' : ∀ y : Phys, (∀ n' < 2 ^ 36, n' ∉ ({n} : Set ℕ) →
        leafEntry d y.mem root n' = leafEntry d x.mem root n') →
        Populated d globalPage (virtIsUserAddress base) (f n) (leafEntry d y.mem root n) →
        ∀ n' ∈ rangeOf base (i + 1), Populated d globalPage (virtIsUserAddress base) (f n')
          (leafEntry d y.mem root n') := by
      intro y hleaf hself n' hn'
      rw [rangeOf_succ, ← hn] at hn'
      by_cases hne : n' = n
      · rwa [hne]
      · have hn' := hn'.resolve_right hne
        rw [hleaf n' (lt_of_mem_rangeOf hn') hne]
        exact hall n' hn'
    simp only [hfind, Option.bind_eq_bind, Option.bind_some, hv]
    by_cases h0 : f n = 0
    swap
    · have hpres := hP n hmem h0
      rw [if_pos hpres]
      refine ⟨x, rfl, fl1, live1, ?_, hall' x (fun _ _ _ => rfl) (Or.inl ⟨hpres, ?_⟩), ?_⟩
      · exact ht.mono (rangeOf_mono (Nat.le_succ i))
      · rw [leafEntry_of_slot hs, hv]
      · rw [hacct, populatedRange, populatedRange, unpopulated_succ, ← hn, if_neg h0, Nat.add_zero]
    have hsucc : unpopulated f base (i + 1) = unpopulated f base i + 1 := by
      rw [unpopulated_succ, ← hn, if_pos h0]
    have hone : 1 ≤ x.acct.reserved := by
      have := hmono (i + 1) hi
      rw [hacct, populatedRange]
      simp only
      omega
    have hs' : slot d x.mem root (pageNumber (pageAddr base i)) = some p := hn ▸ hs
    obtain ⟨y, s2, fl2, e, ht2, -, hpop, hacct2⟩ := ht.ok.populatePage hs'
      (by rw [hv, h0, Nat.zero_and]) hone globalPage (virtIsUserAddress base)
    rw [← hn] at ht2 hpop
    rw [leafEntry_of_slot hs, hv] at hpop
    refine ⟨_, ?_, fl2, live1 ∪ {block y 6}, ?_, hall' _ ht2.leaf hpop, ?_⟩
    · simp only [h0, Nat.zero_and, ne_eq, not_true_eq_false, if_false, e, Option.bind_some]
    · rw [rangeOf_succ, ← hn]
      exact ht.trans ht2
    · change s2.acct = _
      rw [hacct2, hacct, populatedRange, populatedRange, hsucc]
      congr 1
  obtain ⟨s', e, fl', live', ht, hall, hacct⟩ := hrun
  exact ⟨s', fl', live', e, ht, hall, hacct⟩

end Phys

/-- The free memory is what the live blocks leave. -/
theorem Phys.Inv.mem_freeCells_iff {s : Phys} {fl : FreeLists} {live : Set Block} {M : Set ℕ}
    {a : ℕ} (h : Inv d s fl live ∅ M) :
    a ∈ freeCells fl ↔ a ∈ M ∧ ∀ b ∈ live, a ∉ b.cells := by
  rw [mem_freeCells]
  constructor
  · rintro ⟨l, p, hp, ha⟩
    have hS := (Inv.mem_all_of_free hp : block p l ∈ freeBlocks fl ∪ live ∪ ∅)
    refine ⟨h.tiling.subset hS ha, fun b hb hab => h.free_ne hp (Or.inl hb) ?_⟩
    exact h.tiling.eq_of_mem hS (Or.inl (Or.inr hb)) ha hab
  · rintro ⟨ha, hlive⟩
    obtain ⟨b, hb, hab⟩ := h.tiling.mem_cover.mp ha
    rcases hb with (⟨l, p, hp, rfl⟩ | hb) | hb
    · exact ⟨l, p, hp, hab⟩
    · exact absurd hab (hlive b hb)
    · exact hb.elim

/-- The cells of the blocks that are not live any more are free. -/
theorem Phys.Inv.freeCells_released {s s' : Phys} {fl fl' : FreeLists} {live B : Set Block}
    {M : Set ℕ} (h : Inv d s fl live ∅ M) (h' : Inv d s' fl' (live \ B) ∅ M) (hB : B ⊆ live) :
    freeCells fl' = freeCells fl ∪ ⋃ b ∈ B, b.cells := by
  ext a
  simp only [h'.mem_freeCells_iff, h.mem_freeCells_iff, Set.mem_union, Set.mem_iUnion, exists_prop]
  constructor
  · rintro ⟨ha, hl⟩
    by_cases hb : ∃ b ∈ B, a ∈ b.cells
    · exact Or.inr hb
    · exact Or.inl ⟨ha, fun b hb' hab => hb ⟨b, by_contra fun hbB => hl b ⟨hb', hbB⟩ hab, hab⟩⟩
  · rintro (⟨ha, hl⟩ | ⟨b, hb, hab⟩)
    · exact ⟨ha, fun b hb => hl b hb.1⟩
    · have hbl : b ∈ freeBlocks fl ∪ live ∪ ∅ := Or.inl (Or.inr (hB hb))
      refine ⟨h.tiling.subset hbl hab, fun c hc hac => hc.2 ?_⟩
      exact h.tiling.eq_of_mem (Or.inl (Or.inr hc.1)) hbl hac hab ▸ hb

namespace VirtState

variable {entries : Memmap} {st st' : VirtState} {c : VirtCall}

theorem ranges_of_exec (hl : st.handedOver = true) (hv : st.Valid d c)
    (he : st.exec d entries c = some st') : st'.boot.clients.ranges = st.boot.clients.ranges := by
  cases c with
  | earlyMap virt phys numPages flags | earlyMapBitmapPage bitmapPtr | earlyAddMemory =>
      simp [Valid, hl] at hv
  | makeGlobal base pageCount | reservePageTables base pageCount | free base pageCount =>
      obtain ⟨s, -, rfl⟩ := Option.map_eq_some_iff.mp he
      rfl
  | populate base pageCount globalPage =>
      obtain ⟨s, -, rfl⟩ := Option.map_eq_some_iff.mp he
      rfl
  | client c =>
      obtain ⟨t, e, rfl⟩ := Option.map_eq_some_iff.mp he
      have hout : ∀ (size : ℕ) (r : Option ℕ × Phys),
          (st.boot.clients.handOut size r).ranges = st.boot.clients.ranges := by
        rintro size ⟨_ | p, s⟩ <;> rfl
      cases c with
      | addMemory start end_ | addCommitted n => exact hv.2.1.elim
      | reserve n | write b content =>
          obtain rfl := Option.some.inj e
          rfl
      | alloc size | allocReserved size =>
          obtain ⟨r, -, rfl⟩ := Option.map_eq_some_iff.mp e
          exact hout size r
      | free ptr size | freeReserved ptr size | unreserve n =>
          obtain ⟨s, -, rfl⟩ := Option.map_eq_some_iff.mp e
          rfl

/-- The memory of the allocator comes from the usable entries. -/
def FromUsable (d : DirectMap) (entries : Memmap) (st : VirtState) : Prop :=
  st.handedOver = true → ∀ a ∈ st.boot.clients.added, ∃ u ∈ entries, u.type = .usable ∧
    a ∈ Set.Ico (d.base + u.base) (d.base + (u.base + u.length))

/-- An entry that is not empty is present. -/
def AllPresent (f : ℕ → ℕ) : Prop := ∀ n < 2 ^ 36, f n ≠ 0 → f n &&& IA32_PG_P ≠ 0

theorem fromUsable_exec (h : st.Good d entries) (hu : st.FromUsable d entries)
    (hv : st.Valid d c) (he : st.exec d entries c = some st') : st'.FromUsable d entries := by
  intro hl'
  by_cases hl : st.handedOver = true
  · rw [Clients.added, ranges_of_exec hl hv he]
    exact hu hl
  · have hl0 : st.handedOver = false := by simpa using hl
    cases c with
    | earlyMap virt phys numPages flags | earlyMapBitmapPage bitmapPtr =>
        obtain ⟨b, -, rfl⟩ := Option.map_eq_some_iff.mp he
        exact absurd hl' hl
    | earlyAddMemory =>
        obtain ⟨xs, hok⟩ := h.early hl0
        obtain ⟨b, e, -, -, -, hadded, -⟩ := hok.earlyPhysAddMemory
        simp only [exec, e, Option.map_some, Option.some.injEq] at he
        exact he ▸ hadded
    | makeGlobal base pageCount | reservePageTables base pageCount | populate base pageCount _ =>
        exact absurd hv hl
    | free base pageCount => exact absurd hv.1 hl
    | client c => exact absurd hv.1 hl

theorem present_or {x y : ℕ} (h : x &&& IA32_PG_P ≠ 0 ∨ y &&& IA32_PG_P ≠ 0) :
    (x ||| y) &&& IA32_PG_P ≠ 0 := by
  rw [Nat.and_or_distrib_right, Ne, Nat.or_eq_zero_iff]
  tauto

theorem allPresent_flatStep {f g : ℕ → ℕ} (h : AllPresent f) (hs : FlatStep d entries c f g) :
    AllPresent g := by
  -- the pages in `W` are present afterwards, if they have an entry
  have hkey : ∀ W : Set ℕ, Outside W f g → (∀ n ∈ W, g n ≠ 0 → g n &&& IA32_PG_P ≠ 0) →
      AllPresent g := by
    intro W hout hin n hn hne
    by_cases hw : n ∈ W
    · exact hin n hw hne
    · rw [hout n hn hw] at hne ⊢
      exact h n hn hne
  cases c with
  | earlyMap virt phys numPages flags =>
      refine hkey _ hs.1 ?_
      rintro n ⟨i, hi, rfl⟩ -
      rw [(hs.2 i hi).2, Boot.mappedEntry]
      exact present_or (Or.inl (present_or (Or.inl (present_or (Or.inr (by decide))))))
  | earlyMapBitmapPage bitmapPtr =>
      refine hkey _ hs.1 ?_
      rintro n rfl -
      rcases hs.2 with ⟨hp, he⟩ | ⟨x, -, he⟩
      · rwa [he]
      · rw [he]
        exact present_or (Or.inr (by decide))
  | makeGlobal base pageCount =>
      refine hkey _ hs.1 fun n hn hne => ?_
      rw [hs.2 n hn, Phys.withGlobal] at hne ⊢
      split at hne
      · rename_i hp
        rw [if_pos hp]
        exact present_or (Or.inl hp)
      · rename_i hp
        rw [if_neg hp]
        exact h n (lt_of_mem_rangeOf hn) hne
  | populate base pageCount globalPage =>
      refine hkey _ hs.1 fun n hn hne => ?_
      rcases hs.2 n hn with ⟨hp, he⟩ | ⟨-, hp, -⟩
      · rwa [he]
      · exact hp
  | free base pageCount => exact hkey _ hs.1 fun n hn hne => absurd (hs.2 n hn) hne
  | earlyAddMemory | reservePageTables base pageCount | client c =>
      exact hkey ∅ hs fun n hn => absurd hn (Set.notMem_empty n)

theorem flatMap_of_initial (hv : entries.Valid) (hd : entries.HasDirectMap d)
    (hk : KERNEL_REGION_BASE ≤ d.base) (h : st.Initial d entries) :
    ∀ n < 2 ^ 36, st.flatMap d n = 0 := by
  obtain ⟨hl, b, h0, he⟩ := h
  obtain ⟨x, xs, -, hok, hzero⟩ := EarlyOk.start hv hd hk h0 he
  exact fun n hn => hzero n hn

/-- What is known of the memory and of the entries in every reachable state. -/
theorem entries_of_reachable (hv : entries.Valid) (hd : entries.HasDirectMap d)
    (hk : KERNEL_REGION_BASE ≤ d.base)
    (h : Reachable (Initial d entries) (Step d entries) st) :
    st.Good d entries ∧ st.FromUsable d entries ∧ AllPresent (st.flatMap d) := by
  refine h.invariant (I := fun st => st.Good d entries ∧ st.FromUsable d entries ∧
    AllPresent (st.flatMap d)) (fun s h0 => ⟨good_of_initial hv hd hk h0, fun hl => ?_,
      fun n hn hne => ?_⟩) ?_
  · simp [h0.1] at hl
  · exact absurd (flatMap_of_initial hv hd hk h0 n hn) hne
  · rintro s t ⟨hg, hu, hp⟩ ⟨c, hc, he⟩
    obtain ⟨hg', hflat⟩ := good_exec hg hc he
    exact ⟨hg', fromUsable_exec hg hu hc he, allPresent_flatStep hp hflat⟩

/-- The memory in the blocks on the free lists. -/
def FreeMemory (d : DirectMap) (s : Phys) (F : Set ℕ) : Prop :=
  ∃ fl, (∀ l < 16, Chain s.mem (d.head l) (fl l)) ∧ Phys.freeCells fl = F

/-- The present pages of a range. -/
def presentPages (d : DirectMap) (st : VirtState) (base pageCount : ℕ) : Set ℕ :=
  {n ∈ rangeOf base pageCount | st.flatMap d n &&& IA32_PG_P ≠ 0}

/-- What `virt_free` of a range does. -/
structure FreedExactly (d : DirectMap) (st st' : VirtState) (base pageCount : ℕ) : Prop where
  zero : ∀ n ∈ rangeOf base pageCount, st'.flatMap d n = 0
  outside : ∀ n < 2 ^ 36, n ∉ rangeOf base pageCount → st'.flatMap d n = st.flatMap d n
  /-- The present frames become free, and nothing else does. -/
  frames : ∃ F, FreeMemory d st.phys F ∧ FreeMemory d st'.phys
    (F ∪ ⋃ n ∈ presentPages d st base pageCount, pageCells (frameOf d (st.flatMap d n))) ∧
    ∀ n ∈ presentPages d st base pageCount, ∀ a ∈ pageCells (frameOf d (st.flatMap d n)), a ∉ F
  frames_inj : ∀ n ∈ presentPages d st base pageCount, ∀ n' ∈ presentPages d st base pageCount,
    frameOf d (st.flatMap d n) = frameOf d (st.flatMap d n') → n = n'
  reserved : st'.phys.acct.reserved + countPages (st.flatMap d) (· &&& IA32_PG_P = 0) base
    pageCount = st.phys.acct.reserved
  committed : st'.phys.acct.committed + countPages (st.flatMap d) (· &&& IA32_PG_P ≠ 0) base
    pageCount = st.phys.acct.committed
  available : st'.phys.acct.available = st.phys.acct.available + pageCount

/-- In every reachable state, for every range whose tables exist and whose present pages are
neither pinned nor boot pages: `virt_free` returns exactly when the pages that are not present
are reserved, and it frees the range exactly. -/
theorem freedExactly_of_reachable {base pageCount : ℕ} (hv : entries.Valid)
    (hd : entries.HasDirectMap d) (hk : KERNEL_REGION_BASE ≤ d.base)
    (hzero : ∀ u ∈ entries, u.type = .usable → 0 < u.base)
    (h : Reachable (Initial d entries) (Step d entries) st) (hl : st.handedOver = true)
    (hlen : pageCount ≤ 2 ^ 36)
    (hslot : ∀ n ∈ rangeOf base pageCount, (slot d st.phys.mem st.pageTable n).isSome)
    (hg : ∀ n ∈ presentPages d st base pageCount, st.flatMap d n &&& IA32_PG_G = 0)
    (hb : ∀ n ∈ rangeOf base pageCount, n ∉ st.bootPages) :
    (countPages (st.flatMap d) (· &&& IA32_PG_P = 0) base pageCount ≤ st.phys.acct.reserved ↔
      (st.exec d entries (.free base pageCount)).isSome) ∧
    ∀ st', st.exec d entries (.free base pageCount) = some st' →
      FreedExactly d st st' base pageCount := by
  obtain ⟨hgood, husable, hpresent⟩ := entries_of_reachable hv hd hk h
  obtain ⟨-, fl, live, hok⟩ := hgood.late hl
  have hzeroP : ∀ n ∈ rangeOf base pageCount, st.flatMap d n &&& IA32_PG_P = 0 ↔
      st.flatMap d n = 0 := by
    refine fun n hn => ⟨fun hc => by_contra fun hne => ?_, fun hc => by rw [hc, Nat.zero_and]⟩
    exact hpresent n (lt_of_mem_rangeOf hn) hne hc
  have hunpop : countPages (st.flatMap d) (· &&& IA32_PG_P = 0) base pageCount =
      unpopulated (st.flatMap d) base pageCount := countPages_congr hzeroP
  have hpop : countPages (st.flatMap d) (· &&& IA32_PG_P ≠ 0) base pageCount =
      populated (st.flatMap d) base pageCount := countPages_congr fun n hn => not_congr (hzeroP n hn)
  have hpres : ∀ n, n ∈ presentPages d st base pageCount ↔
      n ∈ rangeOf base pageCount ∧ st.flatMap d n ≠ 0 := fun n =>
    and_congr_right fun hn => not_congr (hzeroP n hn)
  have hbase : d.base ∉ st.boot.clients.added := by
    intro hc
    obtain ⟨u, hu, ht, ha⟩ := husable hl _ hc
    have := hzero u hu ht
    simp only [Set.mem_Ico] at ha
    omega
  have hrun := hok.virtFree_run hbase hlen (fun n hn => Option.isSome_iff_exists.mp (hslot n hn))
    (fun n hn => by
      by_cases h0 : st.flatMap d n = 0
      · change st.flatMap d n &&& IA32_PG_G = 0
        rw [h0, Nat.zero_and]
      · exact hg n ((hpres n).mpr ⟨hn, h0⟩)) hb
  rw [hunpop]
  have hexec : st.exec d entries (.free base pageCount) =
      (Phys.virtFree d st.pageTable st.boot.clients.phys base pageCount).map st.setPhys := rfl
  rcases hrun with ⟨hlt, e⟩ | ⟨hle, s', fl', e, ht, hall, hcom, hacct⟩
  · rw [hexec, e]
    refine ⟨⟨fun hc => absurd hlt (not_lt.mpr hc), fun hc => by simp at hc⟩, fun st' he => ?_⟩
    simp at he
  rw [hexec, e]
  refine ⟨⟨fun _ => rfl, fun _ => hle⟩, fun st' he => ?_⟩
  obtain rfl := Option.some.inj he
  have hframe : ∀ n ∈ presentPages d st base pageCount,
      block (frameOf d (st.flatMap d n)) 6 ∈ live := fun n hn =>
    (hok.frame n (lt_of_mem_rangeOf hn.1) (hb n hn.1) ((hpres n).mp hn).2).1.1
  have hsub : framesOf d (st.flatMap d) (rangeOf base pageCount) ⊆ live := by
    rintro b ⟨n, hn, hne, rfl⟩
    exact hframe n ((hpres n).mpr ⟨hn, hne⟩)
  have hunion : (⋃ b ∈ framesOf d (st.flatMap d) (rangeOf base pageCount), b.cells) =
      ⋃ n ∈ presentPages d st base pageCount, pageCells (frameOf d (st.flatMap d n)) := by
    ext a
    simp only [framesOf, Set.mem_iUnion, Set.mem_ofPred_eq, exists_prop]
    constructor
    · rintro ⟨b, ⟨n, hn, hne, rfl⟩, ha⟩
      exact ⟨n, (hpres n).mpr ⟨hn, hne⟩, ha⟩
    · rintro ⟨n, hn, ha⟩
      exact ⟨_, ⟨n, hn.1, ((hpres n).mp hn).2, rfl⟩, ha⟩
  refine ⟨hall, ht.leaf, ⟨Phys.freeCells fl, ⟨fl, hok.ok.inv.chain, rfl⟩, ⟨fl', ?_, ?_⟩, ?_⟩, ?_,
    ?_, ?_, ?_⟩
  · exact ht.ok.ok.inv.chain
  · rw [← hunion]
    exact hok.ok.inv.freeCells_released ht.ok.ok.inv hsub
  · intro n hn a ha hc
    exact (hok.ok.inv.mem_freeCells_iff.mp hc).2 _ (hframe n hn) ha
  · intro n hn n' hn' hf
    exact hok.frame_inj n (lt_of_mem_rangeOf hn.1) (hb n hn.1) ((hpres n).mp hn).2
      n' (lt_of_mem_rangeOf hn'.1) (hb n' hn'.1) ((hpres n').mp hn').2 hf
  · rw [hunpop]
    change s'.acct.reserved + _ = _
    rw [hacct, Phys.freedRange]
    exact Nat.sub_add_cancel hle
  · rw [hpop]
    change s'.acct.committed + _ = _
    rw [hacct, Phys.freedRange]
    exact Nat.sub_add_cancel hcom
  · change s'.acct.available = _
    rw [hacct, Phys.freedRange]
    rfl

/-- The page after the mapped one has its tables, and is not present. -/
theorem freedExactly_eightPages : ∃ st, st.handedOver = true ∧
    (countPages (st.flatMap eightPagesMap) (· &&& IA32_PG_P = 0) 0xFFFF800000101000 1 ≤
        st.phys.acct.reserved ↔
      (st.exec eightPagesMap eightPages (.free 0xFFFF800000101000 1)).isSome) ∧
    ∀ st', st.exec eightPagesMap eightPages (.free 0xFFFF800000101000 1) = some st' →
      FreedExactly eightPagesMap st st' 0xFFFF800000101000 1 := by
  obtain ⟨st, h, hl, hne, hrest⟩ := exists_reachable_eightPages
  have hrange : ∀ n ∈ rangeOf 0xFFFF800000101000 1, n = pageNumber 0xFFFF800000101000 := by
    rintro n ⟨i, hi, rfl⟩
    obtain rfl : i = 0 := by omega
    rfl
  have hzero : ∀ n ∈ rangeOf 0xFFFF800000101000 1, st.flatMap eightPagesMap n = 0 ∧
      n ∉ st.bootPages := by
    intro n hn
    obtain rfl := hrange n hn
    exact hrest _ (pageNumber_lt _) (by decide)
  refine ⟨st, hl, freedExactly_of_reachable eightPages_valid
    (show 0x108 = 0x108000 / PAGE_SIZE by decide) le_rfl (by decide) h hl (by decide)
    (fun n hn => ?_) (fun n hn => ?_) fun n hn => (hzero n hn).2⟩
  · -- both pages are in one table
    obtain rfl := hrange n hn
    have hdiv : pageNumber 0xFFFF800000101000 / 512 = pageNumber 0xFFFF800000100000 / 512 := rfl
    rw [slot, Option.isSome_map, hdiv]
    by_contra hc
    rw [Bool.not_eq_true, Option.isSome_eq_false_iff, Option.isNone_iff_eq_none] at hc
    refine hne ?_
    change leafEntry _ _ _ _ = 0
    rw [leafEntry, slot, hc]
    rfl
  · exact absurd (hzero n hn.1).1 fun hc => hn.2 (by rw [hc, Nat.zero_and])

end VirtState

end Tomato
