import Tomato.Boot.EarlyAlloc

/-!
# The hand-over of the early allocator

`early_phys_add_memory` gives the usable memory above the watermark to the physical
allocator, as the ranges of `handOver`. Every usable page is then either an early
allocation or in one of the ranges.
-/

namespace Tomato

open Memmap Transition

variable {entries pre post : Memmap} {xs ys : List ℕ} {x n top : ℕ} {e e' : EarlyAlloc}
  {d : DirectMap} {t : Clients}

namespace Memmap

/-- The ranges of physical memory that are left above the watermark. -/
def handOver (top : ℕ) (entries : Memmap) : List (ℕ × ℕ) :=
  (entries.filter fun e => e.type == .usable && top ≤ e.base + e.length).map fun e =>
    (max top e.base, e.base + e.length)

def rangePages (r : ℕ × ℕ) : List ℕ := pagesFrom r.1 (r.2 - r.1)

theorem handOver_append (top : ℕ) (pre post : Memmap) :
    handOver top (pre ++ post) = handOver top pre ++ handOver top post := by
  simp [handOver]

theorem handOver_of_lt (h : ∀ u ∈ pre, u.base + u.length < top) : handOver top pre = [] := by
  rw [handOver, List.map_eq_nil_iff, List.filter_eq_nil_iff]
  intro u hu
  have := h u hu
  simp only [Bool.and_eq_true, decide_eq_true_eq]
  omega

theorem handOver_of_le (h : ∀ u ∈ post, top ≤ u.base) :
    (handOver top post).flatMap rangePages = usablePages post := by
  induction post with
  | nil => rfl
  | cons u post ih =>
      have ih := ih fun v hv => h v (List.mem_cons_of_mem _ hv)
      have hle := h u List.mem_cons_self
      by_cases hu : u.type = .usable
      · have htop : top ≤ u.base + u.length := by omega
        have hpages : entryPages u = pagesFrom u.base u.length := if_pos hu
        simp only [handOver, usablePages] at ih ⊢
        simp [hu, htop, ih, rangePages, max_eq_right hle, hpages]
      · have hpages : entryPages u = [] := if_neg hu
        simp only [handOver, usablePages] at ih ⊢
        simp [hu, ih, hpages]

theorem Valid.handOver_aligned (hv : Valid entries) (htop : PAGE_SIZE ∣ top) :
    ∀ r ∈ handOver top entries, PAGE_SIZE ∣ r.1 ∧ PAGE_SIZE ∣ r.2 ∧ r.1 ≤ r.2 := by
  intro r hr
  obtain ⟨u, hu, rfl⟩ := List.mem_map.mp hr
  obtain ⟨hu, hp⟩ := List.mem_filter.mp hu
  simp only [Bool.and_eq_true, decide_eq_true_eq] at hp
  refine ⟨?_, Nat.dvd_add (hv.base_dvd u hu) (hv.length_dvd u hu), max_le hp.2 (Nat.le_add_right _ _)⟩
  rcases max_cases top u.base with ⟨h, -⟩ | ⟨h, -⟩ <;> rw [h]
  · exact htop
  · exact hv.base_dvd u hu

theorem countP_ranges {l : List (ℕ × ℕ)}
    (h : ∀ r ∈ l, PAGE_SIZE ∣ r.1 ∧ PAGE_SIZE ∣ r.2 ∧ r.1 ≤ r.2) (hx : PAGE_SIZE ∣ x) :
    l.countP (fun r => r.1 ≤ x ∧ x + PAGE_SIZE ≤ r.2) = (l.flatMap rangePages).count x := by
  induction l with
  | nil => rfl
  | cons r l ih =>
      obtain ⟨h1, h2, h3⟩ := h r List.mem_cons_self
      have ih := ih fun a ha => h a (List.mem_cons_of_mem _ ha)
      have hmem : x ∈ rangePages r ↔ r.1 ≤ x ∧ x + PAGE_SIZE ≤ r.2 := by
        rw [rangePages, mem_pagesFrom h1 (Nat.dvd_sub h2 h1)]
        constructor
        · rintro ⟨-, h4, h5⟩
          exact ⟨h4, by omega⟩
        · rintro ⟨h4, h5⟩
          exact ⟨hx, h4, by omega⟩
      have hnd : (rangePages r).Nodup := pagesFrom_nodup _ _
      rw [List.countP_cons, List.flatMap_cons, List.count_append, ih, add_comm, hnd.count]
      simp only [hmem, decide_eq_true_eq]

end Memmap

/-- What is left is what is handed over. -/
theorem Watermark.handOver (hv : Valid entries) (hw : Watermark entries e xs) :
    PAGE_SIZE ∣ e.top ∧ (Memmap.handOver e.top entries).flatMap rangePages = xs := by
  cases hw with
  | start => exact ⟨dvd_zero _, handOver_of_le fun _ _ => Nat.zero_le _⟩
  | inside pre post u top size pageCount he hu hlt hend htop =>
      obtain ⟨-, hpre, hnext⟩ := suffix_valid (he ▸ hv)
      refine ⟨htop, ?_⟩
      have h1 : Memmap.handOver top pre = [] := handOver_of_lt fun v hv => by
        have := hpre v hv
        omega
      have h2 : Memmap.handOver top [u] = [(top, top + size)] := by
        have hle : top ≤ u.base + u.length := by omega
        simp [Memmap.handOver, hu, hle, max_eq_left hlt.le, hend]
      have h3 : (Memmap.handOver top post).flatMap rangePages = usablePages post :=
        handOver_of_le fun v hv => by
          have := hnext v hv
          omega
      simp only
      rw [he, handOver_append, h1, ← List.singleton_append, handOver_append, h2, List.nil_append,
        List.flatMap_append, h3, List.flatMap_singleton, rangePages, Nat.add_sub_cancel_left]

namespace Clients

/-- One call of `phys_add_memory`, for memory that was not added before. -/
theorem exec_addMemory (h : Reachable (Initial d) (Step d) t) {start end_ : ℕ}
    (hv : Valid d t (.addMemory start end_)) :
    ∃ t', exec d t (.addMemory start end_) = some t' ∧ Reachable (Initial d) (Step d) t' ∧
      t'.ranges = (start, end_) :: t.ranges ∧ t'.live = t.live ∧ t'.early = t.early ∧
      t'.phys.acct = t.phys.acct.memAcctAddTotal ((end_ - start) / PAGE_SIZE) ∧
      Phys.Frame d t'.added t.phys.mem t'.phys.mem := by
  obtain ⟨-, fl, ho⟩ := good_of_reachable h
  have hv' := hv
  obtain ⟨hs, he, hle, hlo, hhi, hdis⟩ := hv
  obtain ⟨s, fl', e, -, hacct, hf⟩ := ho.physAddMemory hs he hle hdis
    (Set.Ico_subset_Ico hlo hhi) hhi
  have hex : exec d t (.addMemory start end_) =
      some { t with phys := s, ranges := (start, end_) :: t.ranges } := by
    rw [exec, e, Option.map_some]
  refine ⟨_, hex, h.next ⟨_, hv', hex⟩, rfl, rfl, rfl, hacct, fun a ha hh => hf a (fun hc => ha ?_) hh⟩
  rcases hc with hc | hc
  · obtain ⟨r, hr, har⟩ := ho.inv.freeCells_subset hc
    exact ⟨r, List.mem_cons_of_mem _ hr, har⟩
  · exact ⟨_, List.mem_cons_self, hc⟩

end Clients

/-- A range of pointers into the direct map. -/
def DirectMap.directRange (d : DirectMap) (r : ℕ × ℕ) : ℕ × ℕ :=
  (d.physToDirect r.1, d.physToDirect r.2)

/-- One usable entry that does not end below the watermark. -/
theorem earlyAddEntry_spec {u : MemmapEntry} (hv : Valid (u :: entries))
    (hend : u.base + u.length ≤ d.pageCount * 4096) (htop : PAGE_SIZE ∣ top)
    (hge : ¬ u.base + u.length < top) (ht : Reachable (Clients.Initial d) (Clients.Step d) t)
    (hbelow : ∀ v ∈ u :: entries, ∀ a ∈ t.added, a < d.base + v.base) {c : Call}
    (hc : c = .addMemory (d.physToDirect (if u.base < top then top else u.base))
      (d.physToDirect (u.base + u.length))) :
    Clients.Valid d t c ∧ ∃ t', t.exec d c = some t' ∧
      Reachable (Clients.Initial d) (Clients.Step d) t' ∧
      t'.ranges = d.directRange (max top u.base, u.base + u.length) :: t.ranges ∧
      t'.phys.acct =
        t.phys.acct.memAcctAddTotal (rangePages (max top u.base, u.base + u.length)).length ∧
      t'.live = t.live ∧ Phys.Frame d t'.added t.phys.mem t'.phys.mem ∧
      ∀ v ∈ entries, ∀ a ∈ t'.added, a < d.base + v.base := by
  have hb := hv.base_dvd u List.mem_cons_self
  have hl := hv.length_dvd u List.mem_cons_self
  have hmax : (if u.base < top then top else u.base) = max top u.base := by
    split <;> omega
  rw [hmax] at hc
  have hd4 : PAGE_SIZE ∣ d.base := (by decide : (4096 : ℕ) ∣ 2 ^ 21).trans d.base_aligned
  have hmaxdvd : PAGE_SIZE ∣ max top u.base := by
    rcases max_cases top u.base with ⟨h, -⟩ | ⟨h, -⟩ <;> rw [h] <;> assumption
  have hvalid : Clients.Valid d t c := by
    rw [hc]
    refine ⟨Nat.dvd_add hd4 hmaxdvd, Nat.dvd_add hd4 (Nat.dvd_add hb hl), ?_, ?_, ?_, ?_⟩
    · simp only [DirectMap.physToDirect]
      omega
    · simp only [DirectMap.physToDirect]
      omega
    · simp only [DirectMap.physToDirect]
      omega
    · rw [Set.disjoint_left]
      intro a ha hadd
      have h1 := hbelow u List.mem_cons_self a hadd
      have h2 := ha.1
      simp only [DirectMap.physToDirect] at h2
      omega
  have hvalid' := hvalid
  rw [hc] at hvalid'
  obtain ⟨t', e, ht', hr, hlive, -, ha, hf⟩ := Clients.exec_addMemory ht hvalid'
  refine ⟨hvalid, t', hc ▸ e, ht', hr, ?_, hlive, hf, ?_⟩
  · rw [ha, rangePages, length_pagesFrom]
    simp only [DirectMap.physToDirect, Nat.add_sub_add_left]
  · intro v hvm a ha
    simp only [Clients.added, hr, List.mem_cons, exists_eq_or_imp] at ha
    rcases ha with ha | ha
    · have h1 := (List.pairwise_cons.mp hv.sorted).1 v hvm
      have h2 := ha.2
      simp only [DirectMap.physToDirect] at h2
      omega
    · exact hbelow v (List.mem_cons_of_mem _ hvm) a ha

/-- The loop adds the ranges of `handOver`, the first of them first. -/
theorem earlyAddEntries_spec (hv : Valid entries)
    (hmap : ∀ u ∈ entries, u.type = .usable → u.base + u.length ≤ d.pageCount * 4096)
    (htop : PAGE_SIZE ∣ top) (ht : Reachable (Clients.Initial d) (Clients.Step d) t)
    (hbelow : ∀ u ∈ entries, ∀ a ∈ t.added, a < d.base + u.base) :
    ∃ t', Boot.earlyAddEntries d top entries t = some t' ∧
      Reachable (Clients.Initial d) (Clients.Step d) t' ∧
      t'.ranges = ((handOver top entries).map d.directRange).reverse ++ t.ranges ∧
      t'.phys.acct.committed = t.phys.acct.committed ∧
      t'.phys.acct.total = t.phys.acct.total +
        ((handOver top entries).flatMap rangePages).length ∧
      t'.phys.acct.reserved = t.phys.acct.reserved ∧
      t'.live = t.live ∧ Phys.Frame d t'.added t.phys.mem t'.phys.mem := by
  induction entries generalizing t with
  | nil => exact ⟨t, rfl, ht, rfl, rfl, rfl, rfl, rfl, fun _ _ _ => rfl⟩
  | cons u entries ih =>
      have hmap' := fun v hv => hmap v (List.mem_cons_of_mem _ hv)
      have hbelow' := fun v hv => hbelow v (List.mem_cons_of_mem _ hv)
      by_cases hu : u.type = .usable
      swap
      · obtain ⟨t', e, h⟩ := ih hv.tail hmap' ht hbelow'
        have hh : handOver top (u :: entries) = handOver top entries := by simp [handOver, hu]
        refine ⟨t', ?_, by rwa [hh]⟩
        rw [Boot.earlyAddEntries, if_pos hu, e]
      by_cases hlt : u.base + u.length < top
      · obtain ⟨t', e, h⟩ := ih hv.tail hmap' ht hbelow'
        have hh : handOver top (u :: entries) = handOver top entries := by
          simp [handOver, hu, hlt]
        refine ⟨t', ?_, by rwa [hh]⟩
        simp only [Boot.earlyAddEntries, hu, ne_eq, not_true_eq_false, if_false, hlt, if_true, e]
      · -- the part of the entry above the watermark is added
        obtain ⟨-, t1, e1, ht1, hr1, ha1, hlive1, hf1, hbelow1⟩ := earlyAddEntry_spec hv
          (hmap u List.mem_cons_self hu) htop hlt ht hbelow rfl
        obtain ⟨t', e, ht', hr, hc, htot, hres, hlive, hf⟩ := ih hv.tail hmap' ht1 hbelow1
        have hh : handOver top (u :: entries) =
            (max top u.base, u.base + u.length) :: handOver top entries := by
          simp [handOver, hu, not_lt.mp hlt]
        refine ⟨t', ?_, ht', ?_, ?_, ?_, hres.trans (by rw [ha1]; rfl), hlive.trans hlive1,
          fun a ha hh => (hf a ha hh).trans (hf1 a (fun hc => ha ?_) hh)⟩
        · simp only [Boot.earlyAddEntries, hu, ne_eq, not_true_eq_false, if_false, hlt, e1,
            Option.bind_some, e]
        · rw [hr, hr1, hh]
          simp
        · rw [hc, ha1]
          rfl
        · rw [htot, ha1, hh, List.flatMap_cons, List.length_append]
          simp only [Accounting.memAcctAddTotal, add_assoc]
        · obtain ⟨r, hrm, har⟩ := hc
          exact ⟨r, hr ▸ List.mem_append_right _ hrm, har⟩

/-- The first `n` usable pages are allocated. The physical allocator is not touched,
whatever the boot code writes to memory other than the list heads. -/
theorem earlyPhysAllocPages_initial {b : Boot} (hv : Valid entries) (h0 : b.Initial d)
    (hn : n ≤ usablePageCount entries) :
    ∃ b1, b.earlyPhysAllocPages d entries n =
        some (((usablePages entries).take n).map d.physToDirect, b1) ∧
      Watermark entries b1.early ((usablePages entries).drop n) ∧ b1.early.pageCount = n ∧
      ∀ m : Memory, (∀ l < PHYS_BUDDY_MAX_LEVEL, m (d.head l) = 0) →
        Clients.Initial d (b1.setMem m).clients := by
  have hw : Watermark entries b.early
      ((usablePages entries).take n ++ (usablePages entries).drop n) := by
    rw [h0.1, List.take_append_drop]
    exact .start
  obtain ⟨b1, e1, hw1, hc1, m1, hm1⟩ := earlyPhysAllocPages_spec (d := d) hv hw
  have htake : ((usablePages entries).take n).length = n :=
    List.length_take_of_le (by rwa [length_usablePages])
  rw [htake] at e1 hc1
  refine ⟨b1, e1, hw1, by rw [hc1, h0.1, Nat.zero_add], fun m hheads => ?_⟩
  obtain ⟨-, hbit, hacct, hlive, hranges, hearly⟩ := h0.2
  simp only [Boot.setMem, hm1]
  exact ⟨hheads, hbit, hacct, hlive, hranges, hearly⟩

/-- Every usable page is allocated early or given to the physical allocator, one of
the two and once, and no other page is. In the meantime the boot code may write to any
memory but the list heads. -/
theorem early_conservation {b : Boot} (hv : Valid entries) (hd : HasDirectMap entries d)
    (h0 : b.Initial d) (hn : n ≤ usablePageCount entries) :
    ∃ ptrs b1, b.earlyPhysAllocPages d entries n = some (ptrs, b1) ∧ ptrs.length = n ∧
      ptrs.Nodup ∧ (∀ p ∈ ptrs, ∃ x, UsablePage entries x ∧ p = d.physToDirect x) ∧
      ∀ m : Memory, (∀ l < PHYS_BUDDY_MAX_LEVEL, m (d.head l) = 0) →
        ∃ b2, (b1.setMem m).earlyPhysAddMemory d entries = some b2 ∧
          (∀ x, PAGE_SIZE ∣ x →
            (UsablePage entries x → ptrs.count (d.physToDirect x) + b2.clients.ranges.countP
              (fun r => r.1 ≤ d.physToDirect x ∧ d.physToDirect x + PAGE_SIZE ≤ r.2) = 1) ∧
            (¬ UsablePage entries x → ptrs.count (d.physToDirect x) + b2.clients.ranges.countP
              (fun r => r.1 ≤ d.physToDirect x ∧ d.physToDirect x + PAGE_SIZE ≤ r.2) = 0)) ∧
          b2.clients.phys.acct.total = usablePageCount entries ∧
          b2.clients.phys.acct.committed = n := by
  have hlen : n ≤ (usablePages entries).length := by rwa [length_usablePages]
  have hnd := hv.usablePages_nodup
  have hinj : Function.Injective d.physToDirect := fun x y h => Nat.add_left_cancel h
  obtain ⟨b1, e1, hw1, hc1, hinit⟩ := earlyPhysAllocPages_initial hv h0 hn
  refine ⟨_, b1, e1, by rw [List.length_map, List.length_take_of_le hlen],
    List.Nodup.map hinj hnd.take, ?_, ?_⟩
  · intro p hp
    obtain ⟨x, hx, rfl⟩ := List.mem_map.mp hp
    exact ⟨x, hv.mem_usablePages.mp (List.mem_of_mem_take hx), rfl⟩
  intro m hheads
  obtain ⟨htop, hpages⟩ := hw1.handOver hv
  have hinit := hinit m hheads
  have hnone : (b1.setMem m).clients.added = ∅ := by
    simp [Clients.added, hinit.2.2.2.2.1]
  obtain ⟨t, e2, -, hr, hcom, htot, -⟩ := earlyAddEntries_spec hv
    (fun u hu ht => by
      rw [hd.pageCount_mul hv]
      exact hv.le_topAddress hu (by simp [mapped, ht]))
    htop (.start hinit) (by simp [hnone])
  rw [hinit.2.2.2.2.1, List.append_nil] at hr
  rw [hinit.2.2.1] at hcom htot
  have hsum : ((usablePages entries).drop n).length + n = usablePageCount entries := by
    rw [List.length_drop, ← length_usablePages]
    omega
  refine ⟨{ (b1.setMem m) with clients :=
    { t.setAcct (t.phys.acct.memAcctAddCommitted b1.early.pageCount) with
      early := t.early + b1.early.pageCount } }, ?_, ?_, ?_, ?_⟩
  · simp only [Boot.earlyPhysAddMemory, Boot.setMem] at e2 ⊢
    rw [e2]
    rfl
  · -- the pages of the ranges are the rest of the list
    have hcount : ∀ x, PAGE_SIZE ∣ x →
        ((usablePages entries).take n |>.map d.physToDirect).count (d.physToDirect x) +
          t.ranges.countP (fun r => r.1 ≤ d.physToDirect x ∧ d.physToDirect x + PAGE_SIZE ≤ r.2) =
        (usablePages entries).count x := by
      intro x hx
      have hc : t.ranges.countP
          (fun r => r.1 ≤ d.physToDirect x ∧ d.physToDirect x + PAGE_SIZE ≤ r.2) =
          (handOver b1.early.top entries).countP (fun r => r.1 ≤ x ∧ x + PAGE_SIZE ≤ r.2) := by
        rw [hr, List.countP_reverse, List.countP_map]
        refine List.countP_congr fun r _ => ?_
        simp [DirectMap.directRange, DirectMap.physToDirect, add_assoc]
      rw [hc, List.count_map_of_injective _ _ hinj, countP_ranges (hv.handOver_aligned htop) hx,
        hpages, ← List.count_append, List.take_append_drop]
    intro x hx
    have h1 := hcount x hx
    rw [hnd.count] at h1
    refine ⟨fun hu => ?_, fun hu => ?_⟩
    · rwa [if_pos (hv.mem_usablePages.mpr hu)] at h1
    · rwa [if_neg (mt hv.mem_usablePages.mp hu)] at h1
  · simp only [Clients.setAcct, Accounting.memAcctAddCommitted, htot, hpages, hc1]
    omega
  · simp only [Clients.setAcct, Accounting.memAcctAddCommitted, hcom, hc1, Nat.zero_add]

/-- Two usable pages, and one that the bootloader still uses. -/
def threePages : Memmap := [⟨0, 8192, .usable⟩, ⟨8192, 4096, .bootloaderReclaimable⟩]

def threePagesMap : DirectMap where
  base := 0x200000
  pageCount := 3
  levels := 0
  base_pos := by decide
  base_aligned := Nat.dvd_refl _
  top := by decide
  levels_outside := Or.inl (by decide)

theorem threePages_valid : threePages.Valid where
  sorted := by simp [threePages]
  base_dvd := by decide
  length_dvd := by decide
  pos := by decide

def emptyBoot : Boot := ⟨⟨0, 0, 0⟩, ⟨⟨fun _ => 0, fun _ => 0, ⟨0, 0, 0, 0⟩⟩, [], [], 0⟩⟩

theorem emptyBoot_initial (d : DirectMap) : emptyBoot.Initial d :=
  ⟨rfl, fun _ _ => rfl, fun _ => rfl, rfl, rfl, rfl, rfl⟩

/-- One of the two usable pages is allocated early. -/
theorem early_conservation_threePages :
    ∃ ptrs b1, emptyBoot.earlyPhysAllocPages threePagesMap threePages 1 = some (ptrs, b1) ∧
      ∃ b2, (b1.setMem fun _ => 0).earlyPhysAddMemory threePagesMap threePages = some b2 ∧
        b2.clients.phys.acct.total = 2 ∧ b2.clients.phys.acct.committed = 1 := by
  obtain ⟨ptrs, b1, e1, -, -, -, h⟩ := early_conservation (d := threePagesMap) (n := 1)
    threePages_valid (show 3 = 12288 / PAGE_SIZE by decide) (emptyBoot_initial _) (by decide)
  obtain ⟨b2, e2, -, htot, hcom⟩ := h (fun _ => 0) fun _ _ => rfl
  exact ⟨ptrs, b1, e1, b2, e2, htot, hcom⟩

end Tomato
