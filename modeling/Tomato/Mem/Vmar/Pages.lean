import Tomato.Mem.Virt.After
import Tomato.Mem.Vmar.Allocate

/-!
# The pages of the mappings

`Vmm.PagesOk` ties the page table to the tree: the pages of the linked mappings have their
tables, no other page has an entry but those of the boot code, and the pages without an entry
are the ones that are reserved.
-/

namespace Tomato

open RbTree Ranges Forest Transition Blocks Vmars

namespace Vmm

/-- The pages of the linked mappings. -/
def mapped (s : Vmm) : Set ℕ :=
  {n | ∃ x, s.vmars.parent x ≠ none ∧ s.vmars.kind x = .mapping ∧ n ∈ s.vmars.pageNumbers x}

/-- The pages of the linked mappings that have no entry. -/
def empty (k : Kernel) (s : Vmm) : Set ℕ := {n | n ∈ s.mapped ∧ s.virt.flatMap k.d n = 0}

structure PagesOk (k : Kernel) (s : Vmm) : Prop where
  tables : ∀ n ∈ s.mapped, s.virt.HasSlot k.d n
  covered : ∀ n < 2 ^ 36, s.virt.flatMap k.d n ≠ 0 → n ∈ s.virt.bootPages ∨ n ∈ s.mapped
  pinned : ∀ x, s.vmars.parent x ≠ none → s.vmars.kind x = .mapping → s.vmars.locked x = false →
    ∀ n ∈ s.vmars.pageNumbers x, s.virt.flatMap k.d n &&& IA32_PG_G = 0
  present : VirtState.AllPresent (s.virt.flatMap k.d)
  reserved : s.virt.phys.acct.reserved = (s.empty k).ncard
  direct : ∀ n ∈ directPages k.d, ∃ x, s.vmars.kind x = .special ∧ s.vmars.parent x ≠ none ∧
    n ∈ s.vmars.pageNumbers x
  added : ∀ a ∈ s.virt.boot.clients.added, s.virt.HasSlot k.d (pageNumber a)
  usable : s.virt.FromUsable k.d k.entries

variable {k : Kernel} {s s' : Vmm} {f : ℕ → ℕ} {x y n : ℕ}

theorem lt_of_mem_pageNumbers {v : Vmars} (h : n ∈ v.pageNumbers x) : n < 2 ^ 36 := by
  obtain ⟨p, -, rfl⟩ := h
  exact Nat.mod_lt _ (by decide)

theorem lt_of_mem_mapped (h : n ∈ s.mapped) : n < 2 ^ 36 := by
  obtain ⟨x, -, -, hn⟩ := h
  exact lt_of_mem_pageNumbers hn

theorem finite_empty (s : Vmm) (k : Kernel) : (s.empty k).Finite :=
  finite_pages fun _ hn => lt_of_mem_mapped hn.1

/-- The frame at zero is not in the memory of the allocator. -/
theorem PagesOk.base_notMem (h : s.PagesOk k) (hl : s.virt.handedOver = true) :
    k.d.base ∉ s.virt.boot.clients.added := by
  intro hc
  obtain ⟨u, hu, ht, ha⟩ := h.usable hl _ hc
  have := k.usable_pos u hu ht
  simp only [Set.mem_Ico] at ha
  omega

/-- No page of a mapping is in the direct map. -/
theorem PagesOk.notMem_direct (h : s.PagesOk k) (hok : s.Ok k f) (hn : n ∈ s.mapped) :
    n ∉ directPages k.d := by
  intro hd
  obtain ⟨x, hp, hk, hnx⟩ := hn
  obtain ⟨y, hky, hpy, hny⟩ := h.direct n hd
  obtain rfl := hok.eq_of_page hp hpy (by simp [hk]) (by simp [hky]) hnx hny
  simp [hk] at hky

theorem fromUsable_of_ranges {vs vs' : VirtState} (h : vs.FromUsable k.d k.entries)
    (hl : vs.handedOver = true) (hr : vs'.boot.clients.ranges = vs.boot.clients.ranges) :
    vs'.FromUsable k.d k.entries := by
  intro _ a ha
  rw [Clients.added, hr] at ha
  exact h hl a ha

/-- Only pages that are in no mapping change, and no entry appears. -/
theorem PagesOk.congr_virt {W : Set ℕ} (h : s.PagesOk k) (hl : s.virt.handedOver = true)
    (hv : s'.vmars = s.vmars) (hc : VirtState.Changed k.d s.virt s'.virt W)
    (hW : ∀ n ∈ s.mapped, n ∉ W)
    (hflat : ∀ n < 2 ^ 36, s'.virt.flatMap k.d n = s.virt.flatMap k.d n ∨
      s'.virt.flatMap k.d n = Phys.withGlobal (s.virt.flatMap k.d n))
    (hres : s'.virt.phys.acct.reserved = s.virt.phys.acct.reserved) : s'.PagesOk k := by
  have hmapped : s'.mapped = s.mapped := by rw [mapped, mapped, hv]
  have hsame : ∀ n ∈ s.mapped, s'.virt.flatMap k.d n = s.virt.flatMap k.d n := fun n hn =>
    hc.leaf n (lt_of_mem_mapped hn) (hW n hn)
  have hzero : ∀ n < 2 ^ 36, s'.virt.flatMap k.d n ≠ 0 → s.virt.flatMap k.d n ≠ 0 := by
    intro n hn hne
    rcases hflat n hn with he | he <;> rw [he] at hne
    · exact hne
    · exact fun h0 => hne (Phys.withGlobal_eq_zero.mpr h0)
  refine ⟨fun n hn => ?_, fun n hn hne => ?_, fun x hp hk hlk n hn => ?_, fun n hn hne => ?_, ?_,
    ?_, fun a ha => ?_, fromUsable_of_ranges h.usable hl hc.ranges⟩
  · rw [hmapped] at hn
    exact hc.slot n (lt_of_mem_mapped hn) (h.tables n hn)
  · rw [hc.bootPages, hmapped]
    exact h.covered n hn (hzero n hn hne)
  · rw [hv] at hp hk hlk hn
    rw [hsame n ⟨x, hp, hk, hn⟩]
    exact h.pinned x hp hk hlk n hn
  · have hp := h.present n hn (hzero n hn hne)
    rcases hflat n hn with he | he <;> rw [he]
    · exact hp
    · rw [Phys.withGlobal, if_pos hp]
      exact VirtState.present_or (Or.inl hp)
  · rw [hres, h.reserved]
    congr 1
    ext n
    simp only [empty, hmapped, Set.mem_ofPred_eq]
    exact and_congr_right fun hn => by rw [hsame n hn]
  · rw [hv]
    exact h.direct
  · rw [Clients.added, hc.ranges] at ha
    exact hc.slot _ (pageNumber_lt a) (h.added a ha)

/-- Only vmars change that are no linked mappings. -/
theorem PagesOk.congr_vmars (h : s.PagesOk k) (hv : s'.virt = s.virt) (hm : s'.mapped = s.mapped)
    (hpin : ∀ x, s'.vmars.parent x ≠ none → s'.vmars.kind x = .mapping →
      s'.vmars.locked x = false → s.vmars.parent x ≠ none ∧ s.vmars.kind x = .mapping ∧
        s.vmars.locked x = false ∧ s'.vmars.pageNumbers x = s.vmars.pageNumbers x)
    (hspec : ∀ x, s.vmars.kind x = .special → s.vmars.parent x ≠ none →
      s'.vmars.kind x = .special ∧ s'.vmars.parent x ≠ none ∧
        s'.vmars.pageNumbers x = s.vmars.pageNumbers x) : s'.PagesOk k := by
  have hempty : s'.empty k = s.empty k := by rw [empty, empty, hm, hv]
  refine ⟨?_, ?_, fun x hp hk hl n hn => ?_, ?_, ?_, fun n hn => ?_, ?_, ?_⟩
  · rw [hm, hv]
    exact h.tables
  · rw [hm, hv]
    exact h.covered
  · obtain ⟨h1, h2, h3, h4⟩ := hpin x hp hk hl
    rw [hv]
    exact h.pinned x h1 h2 h3 n (h4 ▸ hn)
  · rw [hv]
    exact h.present
  · rw [hempty, hv]
    exact h.reserved
  · obtain ⟨x, hk, hp, hnx⟩ := h.direct n hn
    obtain ⟨h1, h2, h3⟩ := hspec x hk hp
    exact ⟨x, h1, h2, h3 ▸ hnx⟩
  · rw [hv]
    exact h.added
  · rw [hv]
    exact h.usable

theorem Ok.handedOver (h : s.Ok k f) : s.virt.handedOver = true := h.slabs.1.handedOver

theorem Ok.good (h : s.Ok k f) : s.virt.Good k.d k.entries := h.slabs.1.good

/-- A vmar in the tree is no larger than one half of the pages. -/
theorem Ok.pageCount_le (h : s.Ok k f) (hp : s.vmars.parent x ≠ none) :
    s.vmars.pageCount x ≤ 2 ^ 35 := by
  obtain ⟨root, -, -, hpages⟩ := h.pages_bound hp
  by_contra hlt
  have hmem : ∀ i < s.vmars.pageCount x, s.vmars.vmarFirstPage x + i ∈ s.vmars.pages x :=
    fun i hi => ⟨Nat.le_add_right _ _, Nat.add_lt_add_left hi _⟩
  have h1 := hpages _ (hmem 0 (by omega))
  have h2 := hpages _ (hmem (s.vmars.pageCount x - 1) (by omega))
  have hne := k.regions_ne
  rcases h1 with ⟨rfl, h1⟩ | ⟨rfl, h1⟩ <;> rcases h2 with ⟨e, h2⟩ | ⟨e, h2⟩
  · omega
  · exact hne e
  · exact hne e.symm
  · omega

/-- The memory for a new slab is none of the mappings. -/
theorem PagesOk.slabPage (h : s.PagesOk k) (hok : s.Ok k f) (hv : s'.vmars = s.vmars)
    (hp : SlabPage k.d k.entries s.virt s'.virt) :
    s'.PagesOk k ∧ s'.virt.Good k.d k.entries ∧ s'.virt.handedOver = true := by
  obtain ⟨hg, hl, ⟨W, hW⟩, c, -, hacct⟩ := VirtState.slabPage_run hok.good hok.handedOver hp
  refine ⟨h.congr_virt hok.handedOver hv hW.changed (fun n hn hc => ?_) (fun n hn => hW.leaf hn) ?_,
    hg, hl⟩
  · exact h.notMem_direct hok hn (hW.direct hc)
  rw [hacct]
  rfl

/-- The fields of the vmars that were there before. -/
theorem linked_fields {v v1 v' : Vmars} {c p page : ℕ} (hs : SameBut c v v1)
    (hl : Linked v1 v' p c page n) (hx : x ≠ c) : v'.parent x = v.parent x ∧
      v'.kind x = v.kind x ∧ v'.locked x = v.locked x ∧ v'.pageNumbers x = v.pageNumbers x := by
  refine ⟨?_, ?_, ?_, pageNumbers_congr ?_ ?_⟩
  · rw [hl.parent, Function.update_of_ne hx, hs.parent x hx]
  · rw [hl.kind, hs.kind x hx]
  · rw [hl.locked, hs.locked x hx]
  · rw [hl.base, Function.update_of_ne hx, hs.base x hx]
  · rw [hl.pageCount, Function.update_of_ne hx, hs.pageCount x hx]

/-- A region or a special vmar is linked. -/
theorem PagesOk.link {v : Vmars} {c p page : ℕ} (h : s.PagesOk k) (hs : SameBut c s.vmars v)
    (hv : s'.virt = s.virt) (hl : Linked v s'.vmars p c page n)
    (hp0 : s.vmars.parent c = none) (hk : v.kind c ≠ .mapping) : s'.PagesOk k := by
  have hkc : s'.vmars.kind c ≠ .mapping := by rwa [hl.kind]
  have hne : ∀ x, s.vmars.parent x ≠ none → x ≠ c := by
    rintro x hp rfl
    exact hp hp0
  have hne' : ∀ x, s'.vmars.kind x = .mapping → x ≠ c := by
    rintro x hx rfl
    exact hkc hx
  refine h.congr_vmars hv ?_ (fun x hp hx hlk => ?_) fun x hx hp => ?_
  · ext n
    constructor
    · rintro ⟨x, hp, hx, hn⟩
      obtain ⟨h1, h2, -, h4⟩ := linked_fields hs hl (hne' x hx)
      exact ⟨x, h1 ▸ hp, h2 ▸ hx, h4 ▸ hn⟩
    · rintro ⟨x, hp, hx, hn⟩
      obtain ⟨h1, h2, -, h4⟩ := linked_fields hs hl (hne x hp)
      exact ⟨x, h1.symm ▸ hp, h2.symm ▸ hx, h4.symm ▸ hn⟩
  · obtain ⟨h1, h2, h3, h4⟩ := linked_fields hs hl (hne' x hx)
    exact ⟨h1 ▸ hp, h2 ▸ hx, h3 ▸ hlk, h4⟩
  · obtain ⟨h1, h2, -, h4⟩ := linked_fields hs hl (hne x hp)
    exact ⟨h2.trans hx, h1.symm ▸ hp, h4⟩

/-- A mapping is linked, and its pages are reserved. -/
theorem PagesOk.map {v : Vmars} {c p page : ℕ} {g : ℕ → ℕ} (h : s.PagesOk k)
    (hl0 : s.virt.handedOver = true) (hok' : s'.Ok k g) (hs : SameBut c s.vmars v)
    (hl : Linked v s'.vmars p c page n) (hp0 : s.vmars.parent c = none) (hk : v.kind c = .mapping)
    (hc : VirtState.Changed k.d s.virt s'.virt ∅)
    (hslot : ∀ m ∈ rangeOf (s'.vmars.base c) n, s'.virt.HasSlot k.d m)
    (hres : s'.virt.phys.acct.reserved = s.virt.phys.acct.reserved + n) : s'.PagesOk k := by
  have hne : ∀ x, s.vmars.parent x ≠ none → x ≠ c := by
    rintro x hp rfl
    exact hp hp0
  have hpc : s'.vmars.parent c ≠ none := by rw [hl.parent]; simp
  have hkc : s'.vmars.kind c = .mapping := (congrFun hl.kind c).trans hk
  have hcount : s'.vmars.pageCount c = n := by rw [hl.pageCount, Function.update_self]
  have hrange : rangeOf (s'.vmars.base c) n = s'.vmars.pageNumbers c := by
    rw [← rangeOf_eq, hcount]
  have hflat : ∀ m < 2 ^ 36, s'.virt.flatMap k.d m = s.virt.flatMap k.d m := fun m hm =>
    hc.leaf m hm (Set.notMem_empty m)
  have hold : ∀ x, s.vmars.parent x ≠ none → s.vmars.kind x = .mapping →
      ∀ m ∈ s.vmars.pageNumbers x, m ∉ s'.vmars.pageNumbers c := by
    intro x hp hx m hm hmc
    obtain ⟨h1, h2, -, h4⟩ := linked_fields hs hl (hne x hp)
    refine hne x hp (hok'.eq_of_page (h1.symm ▸ hp) hpc ?_ ?_ (h4.symm ▸ hm) hmc)
    · simp [h2, hx]
    · simp [hkc]
  have hmapped : s'.mapped = s.mapped ∪ s'.vmars.pageNumbers c := by
    ext m
    constructor
    · rintro ⟨x, hp, hx, hm⟩
      by_cases hxc : x = c
      · exact Or.inr (hxc ▸ hm)
      · obtain ⟨h1, h2, -, h4⟩ := linked_fields hs hl hxc
        exact Or.inl ⟨x, h1 ▸ hp, h2 ▸ hx, h4 ▸ hm⟩
    · rintro (⟨x, hp, hx, hm⟩ | hm)
      · obtain ⟨h1, h2, -, h4⟩ := linked_fields hs hl (hne x hp)
        exact ⟨x, h1.symm ▸ hp, h2.symm ▸ hx, h4.symm ▸ hm⟩
      · exact ⟨c, hpc, hkc, hm⟩
  -- the new pages had no entry
  have hnew : ∀ m ∈ s'.vmars.pageNumbers c, s.virt.flatMap k.d m = 0 := by
    intro m hm
    by_contra hne0
    rcases h.covered m (lt_of_mem_pageNumbers hm) hne0 with hb | ⟨x, hp, hx, hmx⟩
    · exact hok'.notMem_boot hpc hkc hm (hc.bootPages.symm ▸ hb)
    · exact hold x hp hx m hmx hm
  refine ⟨fun m hm => ?_, fun m hm hne0 => ?_, fun x hp hx hlk m hm => ?_, fun m hm hne0 => ?_,
    ?_, fun m hm => ?_, fun a ha => ?_, fromUsable_of_ranges h.usable hl0 hc.ranges⟩
  · rcases hmapped ▸ hm with hm | hm
    · exact hc.slot m (lt_of_mem_mapped hm) (h.tables m hm)
    · exact hslot m (hrange.symm ▸ hm)
  · rw [hflat m hm] at hne0
    rw [hc.bootPages, hmapped]
    exact (h.covered m hm hne0).imp id Or.inl
  · rw [hflat m (lt_of_mem_pageNumbers hm)]
    by_cases hxc : x = c
    · rw [hnew m (hxc ▸ hm), Nat.zero_and]
    · obtain ⟨h1, h2, h3, h4⟩ := linked_fields hs hl hxc
      exact h.pinned x (h1 ▸ hp) (h2 ▸ hx) (h3 ▸ hlk) m (h4 ▸ hm)
  · rw [hflat m hm] at hne0 ⊢
    exact h.present m hm hne0
  · have hsplit : s'.empty k = s.empty k ∪ s'.vmars.pageNumbers c := by
      ext m
      simp only [empty, hmapped, Set.mem_ofPred_eq, Set.mem_union]
      constructor
      · rintro ⟨hm | hm, h0⟩
        · exact Or.inl ⟨hm, hflat m (lt_of_mem_mapped hm) ▸ h0⟩
        · exact Or.inr hm
      · rintro (⟨hm, h0⟩ | hm)
        · exact ⟨Or.inl hm, (hflat m (lt_of_mem_mapped hm)).trans h0⟩
        · exact ⟨Or.inr hm, (hflat m (lt_of_mem_pageNumbers hm)).trans (hnew m hm)⟩
    have hdisj : Disjoint (s.empty k) (s'.vmars.pageNumbers c) := by
      rw [Set.disjoint_left]
      rintro m ⟨⟨x, hp, hx, hm⟩, -⟩ hmc
      exact hold x hp hx m hm hmc
    have hle := hok'.pageCount_le hpc
    rw [hsplit, Set.ncard_union_eq hdisj (finite_empty s k)
      (finite_pages fun m hm => lt_of_mem_pageNumbers hm), ← h.reserved, hres, ← hrange,
      ncard_rangeOf (by omega)]
  · obtain ⟨x, hx, hp, hmx⟩ := h.direct m hm
    obtain ⟨h1, h2, -, h4⟩ := linked_fields hs hl (hne x hp)
    exact ⟨x, h2.trans hx, h1.symm ▸ hp, h4.symm ▸ hmx⟩
  · rw [Clients.added, hc.ranges] at ha
    exact hc.slot _ (pageNumber_lt a) (h.added a ha)

end Vmm

end Tomato
