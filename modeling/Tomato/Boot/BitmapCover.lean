import Tomato.Boot.DirectMapBounds
import Tomato.Boot.Protection

/-!
# The bitmap covers what the allocator looks at

The physical allocator looks at the bits of the blocks that it splits and merges, and of their
buddies, which may be in holes of the memory map or beyond the end of the memory. They are all in
one block of the largest size with memory of the allocator, and one page of the bitmap is for
such a block. `early_create_buddy_bitmap` has mapped that page.
-/

namespace Tomato

open RbTree Ranges Radix Forest Transition Loops Blocks Vmars Memmap
open VirtState (Run)

/-- The addresses are in one block of the largest size. -/
def SameBlock (p q : ℕ) : Prop := p / 2 ^ 21 = q / 2 ^ 21

namespace Phys

variable {d : DirectMap} {s : Phys} {p q level k n ptr : ℕ}

theorem sameBlock_buddy (hl : level < 15) : SameBlock (p ^^^ blockSize level) p := by
  rw [SameBlock, blockSize_eq, ← Nat.shiftRight_eq_div_pow, Nat.shiftRight_xor_distrib,
    Nat.shiftRight_eq_div_pow, Nat.shiftRight_eq_div_pow,
    Nat.div_eq_of_lt (Nat.pow_lt_pow_right (by norm_num) (by omega)), Nat.xor_zero]

/-- A block is in one block of the largest size. -/
theorem sameBlock_of_mem (ha : (block p level).Aligned) (hl : level < 16) (hlo : p ≤ ptr)
    (hhi : ptr < p + 2 ^ (level + 6)) : SameBlock ptr p := by
  obtain ⟨c, hc⟩ : 2 ^ (level + 6) ∣ p := ha
  have hpow : 2 ^ 21 = 2 ^ (level + 6) * 2 ^ (15 - level) := by
    rw [← pow_add]
    congr 1
    omega
  have hdiv : ptr / 2 ^ (level + 6) = p / 2 ^ (level + 6) := by
    have hpos : 0 < 2 ^ (level + 6) := Nat.two_pow_pos _
    rw [hc, Nat.mul_div_cancel_left _ hpos, Nat.div_eq_iff hpos]
    rw [hc] at hlo hhi
    rw [Nat.mul_comm c]
    omega
  rw [SameBlock, hpow, ← Nat.div_div_eq_div_mul, hdiv, Nat.div_div_eq_div_mul]

/-- Merging stays in the block. -/
theorem mergeBlock_sameBlock (hn : level + n = 15) :
    SameBlock (mergeBlock d n p level s).1 p := by
  induction n generalizing p level s with
  | zero => rfl
  | succ n ih =>
    have hb := sameBlock_buddy (p := p) (show level < 15 by omega)
    simp only [mergeBlock]
    split
    · rfl
    split
    · rfl
    · refine (ih (by omega)).trans ?_
      split
      · exact hb
      · rfl

theorem mergeProbes_sameBlock (hn : level + n = 15) :
    ∀ ptr ∈ mergeProbes d n p level s, SameBlock ptr p := by
  induction n generalizing p level s with
  | zero => simp [mergeProbes]
  | succ n ih =>
    have hb := sameBlock_buddy (p := p) (show level < 15 by omega)
    intro ptr hp
    rw [mergeProbes] at hp
    rcases List.mem_cons.mp hp with rfl | hp
    · exact hb
    split at hp
    · simp at hp
    split at hp
    · simp at hp
    · refine (ih (by omega) ptr hp).trans ?_
      split
      · exact hb
      · rfl

theorem freeProbes_sameBlock {checkAllocated : Bool} (hl : level < 16) :
    ∀ ptr ∈ freeProbes d s p level checkAllocated, SameBlock ptr p := by
  have hn : level + (PHYS_BUDDY_MAX_LEVEL - 1 - level) = 15 := by
    rw [PHYS_BUDDY_MAX_LEVEL]
    omega
  intro ptr hp
  simp only [freeProbes] at hp
  split at hp
  · simp at hp
  split at hp
  · exact List.mem_singleton.mp hp ▸ rfl
  rcases List.mem_append.mp hp with hp | hp
  · rcases List.mem_append.mp hp with hp | hp
    · split at hp
      · have : ptr = p := by simpa using hp
        exact this ▸ rfl
      · simp at hp
    · exact mergeProbes_sameBlock hn ptr hp
  · exact List.mem_singleton.mp hp ▸ mergeBlock_sameBlock hn

theorem bestLevelBelow_lt {addr addrEnd i : ℕ} (h : bestLevelBelow addr addrEnd n = some i) :
    i < n := by
  induction n with
  | zero => simp [bestLevelBelow] at h
  | succ n ih =>
    simp only [bestLevelBelow] at h
    split at h
    · exact (ih h).trans (Nat.lt_succ_self n)
    split at h
    · exact Option.some.inj h ▸ Nat.lt_succ_self n
    · exact (ih h).trans (Nat.lt_succ_self n)

/-- The blocks that are added, and their buddies, are in blocks with added memory. -/
theorem addBlocksProbes_sameBlock {start end_ : ℕ} :
    ∀ ptr ∈ addBlocksProbes d start end_ s, ∃ a ∈ Set.Ico start end_, SameBlock ptr a := by
  obtain ⟨m, hm⟩ : ∃ m, m = end_ - start := ⟨_, rfl⟩
  induction m using Nat.strong_induction_on generalizing start s with
  | _ m ih =>
    intro ptr hp
    rw [addBlocksProbes] at hp
    split at hp
    swap
    · simp at hp
    rename_i hlt
    cases hl : getBestLevelForBlock start end_ with
    | none => simp [hl] at hp
    | some level =>
      have hpos : 0 < blockSize level := by
        rw [blockSize_eq]
        exact Nat.two_pow_pos _
      rw [hl] at hp
      rcases List.mem_append.mp hp with hp | hp
      · exact ⟨start, ⟨le_rfl, hlt⟩, freeProbes_sameBlock (bestLevelBelow_lt hl) ptr hp⟩
      · cases hf : physFreeInternal d s start level false with
        | none => simp [hf] at hp
        | some r =>
          rw [hf] at hp
          obtain ⟨a, ha, hs⟩ := ih (end_ - (start + blockSize level)) (by omega) rfl ptr hp
          exact ⟨a, ⟨(Nat.le_add_right _ _).trans ha.1, ha.2⟩, hs⟩

theorem allocProbes_sameBlock {fl : FreeLists} {live : Set Block} {M : Set ℕ}
    (h : Inv d s fl live ∅ M) (hl : level < 16) (reserved : Bool) :
    ∀ ptr ∈ allocProbes d s level reserved, ∃ a ∈ M, SameBlock ptr a := by
  obtain ⟨h1, h2, h3, -⟩ := closestLevel_spec h (PHYS_BUDDY_MAX_LEVEL - level)
    (show level + (PHYS_BUDDY_MAX_LEVEL - level) = 16 by simp only [PHYS_BUDDY_MAX_LEVEL]; omega)
  intro ptr hp
  simp only [allocProbes] at hp
  generalize closestLevel d s.mem (PHYS_BUDDY_MAX_LEVEL - level) level = k at h1 h2 h3 hp
  split at hp
  · simp at hp
  rename_i hk
  split at hp
  swap
  · simp at hp
  split at hp
  · simp at hp
  have hk16 : k < 16 := lt_of_le_of_ne h2 hk
  have hpage : s.mem (d.head k) ∈ fl k := by
    rw [(h.chain k hk16).head]
    cases hfl : fl k with
    | nil => exact absurd hfl (h3 hk16)
    | cons q qs => simp
  have hsub := h.tiling.subset (Inv.mem_all_of_free hpage)
  refine ⟨_, hsub (Block.addr_mem_cells _), ?_⟩
  have hal := h.tiling.aligned _ (Inv.mem_all_of_free hpage)
  rcases List.mem_append.mp hp with hp | hp
  · obtain ⟨hlo, hhi⟩ := mem_splitProbes hp
    rw [show level + (k - level) = k by omega] at hhi
    exact sameBlock_of_mem hal hk16 hlo hhi
  · exact List.mem_singleton.mp hp ▸ rfl

end Phys

/-- What a call looks at is in a block with memory that was added before, or that it adds. -/
theorem Clients.callProbes_sameBlock {d : DirectMap} {t : Clients} {c : Call} (h : t.Good d)
    (hv : t.Valid d c) : ∀ ptr ∈ t.callProbes d c, ∃ a ∈ t.addedBy c, SameBlock ptr a := by
  obtain ⟨-, fl, ho⟩ := h
  have hfree : ∀ {p size level : ℕ}, getLevelBySize size = some level → block p level ∈ t.live →
      ∀ ptr ∈ Phys.freeBlockProbes d t.phys p level, ∃ a ∈ t.added, SameBlock ptr a := by
    intro p size level hl hb ptr hp
    have hsub := ho.inv.tiling.subset (Or.inl (Or.inr hb))
    exact ⟨p, hsub (Block.addr_mem_cells _),
      Phys.freeProbes_sameBlock (getLevelBySize_eq_some hl).1 ptr hp⟩
  intro ptr hp
  cases c with
  | addMemory start end_ =>
    simp only [callProbes, Phys.physAddMemoryProbes] at hp
    split at hp
    · simp at hp
    · obtain ⟨a, ha, hs⟩ := Phys.addBlocksProbes_sameBlock ptr hp
      exact ⟨a, Or.inr ha, hs⟩
  | alloc size =>
    simp only [callProbes, Phys.physAllocProbes] at hp
    split at hp
    · simp at hp
    · rename_i level hl
      exact Phys.allocProbes_sameBlock ho.inv (getLevelBySize_eq_some hl).1 _ ptr hp
  | allocReserved size =>
    simp only [callProbes, Phys.physAllocReservedProbes] at hp
    split at hp
    · simp at hp
    · rename_i level hl
      exact Phys.allocProbes_sameBlock ho.inv (getPageLevelBySize_eq_some hl).2.2.1 _ ptr hp
  | free p size =>
    simp only [callProbes, Phys.physFreeProbes] at hp
    split at hp
    · simp at hp
    rename_i hp0
    obtain ⟨l, hl, hb⟩ := hv.resolve_left hp0
    rw [hl] at hp
    exact hfree hl hb ptr hp
  | freeReserved p size =>
    simp only [callProbes, Phys.physFreeReservedProbes] at hp
    split at hp
    · simp at hp
    rename_i hp0
    obtain ⟨l, hl, hb⟩ := hv.resolve_left hp0
    split at hp
    · simp at hp
    · rename_i k hk
      obtain rfl : l = k := Option.some.inj (hl.symm.trans (getPageLevelBySize_eq_some hk).1)
      exact hfree hl hb ptr hp
  | addCommitted n | reserve n | unreserve n | write b content => simp [callProbes] at hp

/-- The byte of the bitmap for the block at the pointer. -/
def bitmapIndex (d : DirectMap) (ptr : ℕ) : ℕ := (d.directToPhys ptr >>> PHYS_BUDDY_MIN_ORDER) / 8

/-- The range is memory of a usable entry. -/
def InUsable (k : Kernel) (start end_ : ℕ) : Prop :=
  ∃ e ∈ k.entries, e.type = .usable ∧ k.d.physToDirect e.base ≤ start ∧
    end_ ≤ k.d.physToDirect (e.base + e.length)

variable {k : Kernel} {img : KernelImage k}

theorem KernelImage.mapping_mem (img : KernelImage k) (t : KernelSection) :
    img.mapping t ∈ img.directMap :: KernelSection.all.map img.mapping :=
  List.mem_cons_of_mem _ (List.mem_map_of_mem (by cases t <;> decide))

namespace Vmm

variable {s : Vmm}

/-- The byte is in `g_buddy_bitmap_mapping`, in a page that has the entry of
`early_create_buddy_bitmap`, with a usable frame. -/
def BitmapByte (k : Kernel) (img : KernelImage k) (v : Vmars) (vs : VirtState) (i : ℕ) : Prop :=
  i < v.pageCount img.buddyBitmap * PAGE_SIZE ∧ v.base img.buddyBitmap + i < 2 ^ 64 ∧
    ∃ x ∈ usablePages k.entries,
      vs.flatMap k.d (pageNumber (v.base img.buddyBitmap + i)) = x ||| Boot.bitmapFlags

/-- The bitmap is not at the end of the address space, as there is room for it below the
kernel. -/
theorem Booted.bitmap_lt (h : s.Booted k img) :
    s.vmars.base img.buddyBitmap + bitmapPageCount k.d * 4096 < 2 ^ 64 := by
  obtain ⟨v, xs, page, hv, hok, hxs, ⟨⟨hlo, hhi, hdisj⟩, hleast⟩, hbase⟩ := h.bitmapPlace
  rw [if_pos rfl] at hleast
  obtain ⟨hr1, hr2⟩ := hv.kernelRegion_pages
  rw [hr1, hr2] at hleast
  rw [hr2] at hhi
  have hpages := fun y (hy : y ∈ img.directMap :: KernelSection.all.map img.mapping) =>
    hv.pages_eq (KernelImage.buddyBitmap_ne hy)
  have hmem := fun x => (hxs x).trans (hv.parent_iff x)
  have hcount := bitmapPageCount_eq k.d
  have htop := k.d.top
  have hbase' := k.kernel_le
  have hK : KERNEL_REGION_BASE = 0xFFFF800000000000 := rfl
  have hge := img.virtBase_ge
  have hdm := (KernelImage.directMap_pages img)
  obtain ⟨hd1, hd2⟩ := hpages img.directMap List.mem_cons_self
  rw [hdm.1] at hd1
  rw [hdm.2] at hd2
  have hsec : ∀ t : KernelSection, img.virtBase / 4096 ≤ v.vmarFirstPage (img.mapping t) := by
    intro t
    rw [(hpages _ (KernelImage.mapping_mem img t)).1, (KernelImage.section_pages img t).1]
    exact Nat.le_add_right _ _
  by_contra hlast
  -- the first section ends below the bitmap, as that is at the end of the region
  have hfirst : img.virtBase / 4096 + bitmapPageCount k.d ≤ 2 ^ 52 := by
    have hx := KernelImage.mapping_mem img .limineRequests
    obtain ⟨hs1, hs2⟩ := hpages _ hx
    obtain ⟨h3, h4⟩ := KernelImage.section_pages img .limineRequests
    have hpos := img.pageCount_pos .limineRequests
    have hsub := hv.tree.nested.subset (.single ((hv.parent_iff _).mpr hx))
      (show v.vmarFirstPage (img.mapping .limineRequests) ∈ v.pages _ from
        ⟨le_rfl, by rw [hs1, hs2, h3, h4]; omega⟩)
    rw [pages, hr2, Set.mem_Ico, hs1, h3] at hsub
    rcases hdisj _ ((hmem _).mpr hx) with hlt | hle
    · rw [hs1, h3] at hlt
      omega
    · rw [hs2, h4] at hle
      omega
  -- the place before the direct map, or the one after it
  have hfits : ∀ q, 0xFFFF800000000 ≤ q → q + bitmapPageCount k.d ≤ img.virtBase / 4096 →
      (q + bitmapPageCount k.d ≤ k.d.base / 4096 ∨ k.d.base / 4096 + k.d.pageCount ≤ q) →
      page ≤ q := by
    intro q hq hend hdirect
    refine hleast q ⟨hq, by omega, fun x hx => ?_⟩
    rcases List.mem_cons.mp ((hmem x).mp hx) with rfl | hx
    · rwa [hd1, hd2]
    · obtain ⟨t, -, rfl⟩ := List.mem_map.mp hx
      exact Or.inl (hend.trans (hsec t))
  have h1 := hfits 0xFFFF800000000
  have h2 := hfits (k.d.base / 4096 + k.d.pageCount)
  omega

/-- A page of the bitmap has the entry that `early_create_buddy_bitmap` made. -/
theorem Booted.bitmap_entry {n : ℕ} (h : s.Booted k img)
    (hn : n ∈ s.vmars.pageNumbers img.buddyBitmap) (hne : s.virt.flatMap k.d n ≠ 0) :
    ∃ x ∈ usablePages k.entries, s.virt.flatMap k.d n = x ||| Boot.bitmapFlags := by
  have huniq : ∀ x ∈ img.linked, n ∈ s.vmars.pageNumbers x → x = img.buddyBitmap := by
    intro x hx hnx
    obtain ⟨hk, hp⟩ := h.special hx
    obtain ⟨hk', hp'⟩ := h.special (buddyBitmap_mem img)
    exact h.ok.eq_of_page hp hp' (by simp [hk]) (by simp [hk']) hnx hn
  have he := h.entry n (lt_of_mem_pageNumbers hn) hne
  generalize s.virt.flatMap k.d n = entry at he
  cases he with
  | kernel t i hi =>
    have hx := huniq (img.mapping t) (mapping_mem img t) (by
      rw [← rangeOf_eq, (h.mapping_range t).1, (h.mapping_range t).2]
      exact mem_rangeOf hi)
    exact absurd hx (KernelImage.buddyBitmap_ne (KernelImage.mapping_mem img t))
  | direct e i hmem hm hi =>
    have hx := huniq img.directMap (directMap_mem img)
      (h.directPage (VirtState.directPage_of_mapped hmem hm hi))
    exact absurd hx (KernelImage.buddyBitmap_ne List.mem_cons_self)
  | bitmap i x hi hx => exact ⟨x, hx, rfl⟩

/-- The byte for a block that shares a block of the largest size with usable memory. -/
theorem Booted.bitmapByte {start end_ a ptr : ℕ} (h : s.Booted k img)
    (hu : InUsable k start end_) (ha : a ∈ Set.Ico start end_) (hs : SameBlock ptr a) :
    BitmapByte k img s.vmars s.virt (bitmapIndex k.d ptr) := by
  obtain ⟨e, he, ht, hlo, hhi⟩ := hu
  have hm : Memmap.mapped e = true := by simp [Memmap.mapped, ht]
  obtain ⟨c, hc⟩ := k.d.base_aligned
  obtain ⟨v, xs, page, -, -, -, -, hbase⟩ := h.bitmapPlace
  have hlt := h.bitmap_lt
  have hle := bitmapEnd_le he hm
  have hsize : PAGE_SIZE = 4096 := rfl
  rw [DirectMap.physToDirect] at hlo hhi
  simp only [Set.mem_Ico] at ha
  rw [SameBlock] at hs
  have hmin : bitmapIndex k.d ptr = (ptr - k.d.base) / 512 := by
    rw [bitmapIndex, DirectMap.directToPhys, Nat.shiftRight_eq_div_pow, PHYS_BUDDY_MIN_ORDER,
      Nat.div_div_eq_div_mul]
  -- the page of the bitmap for the block of the largest size
  obtain ⟨j, hj⟩ : ∃ j, j = (a - k.d.base) / 2 ^ 21 := ⟨_, rfl⟩
  have hij : bitmapIndex k.d ptr / 4096 = j := by
    rw [hmin]
    omega
  have h1 : bitmapStart e ≤ j * PAGE_SIZE := by
    rw [bitmapStart_eq, hsize]
    omega
  have h2 : j * PAGE_SIZE < bitmapEnd e := by
    rw [bitmapEnd_eq, hsize]
    omega
  have hcount : j < bitmapPageCount k.d := by
    rw [hsize] at h2
    omega
  have hpage : pageNumber (s.vmars.base img.buddyBitmap + bitmapIndex k.d ptr) =
      pageNumber (pageAddr (s.vmars.base img.buddyBitmap) j) := by
    rw [pageNumber_pageAddr, pageNumber, hbase]
    omega
  have hpres := h.bitmapMapped e he hm (by omega) j h1 h2
  refine ⟨?_, by omega, ?_⟩
  · rw [h.bitmapCount, hsize]
    omega
  · rw [hpage]
    refine h.bitmap_entry ?_ fun h0 => hpres (by rw [h0, Nat.zero_and])
    rw [← rangeOf_eq, h.bitmapCount]
    exact mem_rangeOf hcount

/-- The pages of the bitmap stay as they are. -/
theorem BitmapByte.run {vs : VirtState} {i : ℕ} (h : BitmapByte k img s.vmars s.virt i)
    (hb : s.Booted k img) (hr : Run k.d k.entries s.virt vs) :
    BitmapByte k img s.vmars vs i := by
  obtain ⟨h1, h2, x, hx, hentry⟩ := h
  obtain ⟨hboot, hleaves⟩ := VmmRun.leaves_of_run hb hr
  have hn := pageNumber_lt (s.vmars.base img.buddyBitmap + i)
  have hmem : pageNumber (s.vmars.base img.buddyBitmap + i) ∈ vs.bootPages := by
    rw [hboot, hb.bootPages _ hn, hentry]
    intro h0
    exact absurd (Nat.or_eq_zero_iff.mp h0).2 (by decide)
  refine ⟨h1, h2, x, hx, ?_⟩
  rcases hleaves.early _ hn hmem with hf | hf <;> rw [hf, hentry]
  rw [Nat.or_assoc]
  congr 1

end Vmm

/-- Every byte of the bitmap that the allocator looks at, in any run over usable memory, is in a
page that `early_create_buddy_bitmap` mapped and that is still there after any run of calls on
vmars. -/
theorem bitmapByte_of_reachable {s₀ s : Vmm} {r : VmmRun} {t : Clients} {c : Call}
    (hs : s₀.Start k img) (he : s₀.earlyVirtInit k img = some s)
    (h : Reachable (fun r : VmmRun => r = ⟨s, fun _ => 0⟩) (VmmRun.Step k) r)
    (ht : Reachable (Clients.Initial k.d) (Clients.Step k.d) t)
    (hranges : ∀ q ∈ t.ranges, InUsable k q.1 q.2) (hv : t.Valid k.d c)
    (hc : ∀ start end_, c = .addMemory start end_ → InUsable k start end_) :
    ∀ ptr ∈ t.callProbes k.d c,
      Vmm.BitmapByte k img s.vmars r.vmm.virt (bitmapIndex k.d ptr) := by
  intro ptr hptr
  have hb := hs.booted he
  obtain ⟨a, ha, hsame⟩ := Clients.callProbes_sameBlock (Clients.good_of_reachable ht) hv ptr hptr
  have hboot : ∀ r : VmmRun, r = ⟨s, fun _ => 0⟩ → r.BootedFrom img := by
    rintro r rfl
    exact ⟨s₀, hs, he, rfl⟩
  obtain ⟨-, r₀, rfl, hr⟩ := VmmRun.run_of_reachable hboot h
  have hadded : a ∈ t.added → ∃ start end_, InUsable k start end_ ∧ a ∈ Set.Ico start end_ := by
    rintro ⟨q, hq, haq⟩
    exact ⟨q.1, q.2, hranges q hq, haq⟩
  obtain ⟨start, end_, hu, hin⟩ : ∃ start end_, InUsable k start end_ ∧ a ∈ Set.Ico start end_ := by
    cases c with
    | addMemory start end_ =>
      rcases ha with ha | ha
      · exact hadded ha
      · exact ⟨start, end_, hc _ _ rfl, ha⟩
    | addCommitted n | alloc size | allocReserved size | free p size | freeReserved p size
    | reserve n | unreserve n | write b content => exact hadded ha
  exact (hb.bitmapByte hu hin hsame).run hb hr

/-- The small kernel adds its memory. -/
theorem bitmapByte_smallKernel : ∃ s, smallStart.earlyVirtInit smallKernel smallImage = some s ∧
    ∀ ptr ∈ emptyBoot.clients.callProbes smallKernel.d
      (.addMemory 0xFFFF800000100000 0xFFFF800000140000),
      Vmm.BitmapByte smallKernel smallImage s.vmars s.virt (bitmapIndex smallKernel.d ptr) := by
  obtain ⟨s, he, -⟩ := exists_started
  have hinit : Clients.Initial smallKernel.d emptyBoot.clients := (emptyBoot_initial _).2
  have hbase : smallKernel.d.base = 0xFFFF800000000000 := rfl
  have hcount : smallKernel.d.pageCount = 0x140 := rfl
  refine ⟨s, he, bitmapByte_of_reachable (r := ⟨s, fun _ => 0⟩) smallStart_start he (.start rfl)
    (.start hinit) ?_ ?_ ?_⟩
  · intro q hq
    simp [emptyBoot] at hq
  · rw [Clients.Valid, hbase, hcount]
    refine ⟨by decide, by decide, by decide, by decide, by decide, ?_⟩
    simp [Clients.added, emptyBoot]
  · rintro start end_ h
    obtain ⟨rfl, rfl⟩ := Call.addMemory.inj h
    refine ⟨_, List.mem_singleton_self _, rfl, ?_, ?_⟩
    · rw [DirectMap.physToDirect, hbase]
      norm_num
    · rw [DirectMap.physToDirect, hbase]
      norm_num

end Tomato
