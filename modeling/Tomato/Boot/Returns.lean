import Tomato.Boot.EarlyEnough
import Tomato.Boot.InitRun

/-!
# The boot returns

The vmars of the kernel are linked if they are in the region of the kernel and apart. With
enough memory for the tables `early_virt_init` returns, which is shown for a small kernel.
-/

namespace Tomato

open RbTree Ranges Forest Transition Loops Blocks Vmars Memmap

variable {k : Kernel} {img : KernelImage k} {v v' : Vmars} {linked : List ℕ} {x y : ℕ}

/-- The pages of all the sections. -/
def KernelImage.totalPages (img : KernelImage k) : ℕ := (KernelSection.all.map img.pageCount).sum

/-- Two vmars have no page in common. -/
def Vmars.ApartFrom (v : Vmars) (x y : ℕ) : Prop :=
  v.pageEnd x ≤ v.vmarFirstPage y ∨ v.pageEnd y ≤ v.vmarFirstPage x

namespace KernelTree

/-- `vmar_link` returns for a vmar in the region of the kernel that is apart from the others. -/
theorem vmarLink_isSome (h : KernelTree img linked v) (hx : x ∈ img.statics) (hnew : x ∉ linked)
    (hn : 0 < v.pageCount x) (hd : 4096 ∣ v.base x)
    (hin : v.vmarFirstPage k.kernelRegion ≤ v.vmarFirstPage x ∧
      v.pageEnd x ≤ v.pageEnd k.kernelRegion)
    (hdisj : ∀ y ∈ linked, v.ApartFrom x y) : ∃ v', v.vmarLink k.kernelRegion x = some v' := by
  have hr := kernelRegion_mem (k := k) v
  obtain ⟨xs, hok, hxs⟩ := h.tree.children k.kernelRegion
  have hbound := (h.tree.bound _ hr).1
  have hkind := (h.tree.root k.kernelRegion (Or.inl rfl)).2
  have hlt : v.vmarFirstPage x < v.pageEnd x := Nat.lt_add_of_pos_right hn
  have hcheck : v.vmarCheckInParent k.kernelRegion x = .ok () := by
    rw [ChildrenOk.vmarCheckInParent_eq (by omega), if_pos hin]
  rw [Vmars.vmarLink, hcheck]
  rcases h.tree.vmarLinkInternal hr hkind (h.notMem_tree hx hnew) (h.unmapped_eq x)
    ⟨hin.1, hlt, hin.2⟩ hd hok hxs with ⟨-, y, hy, hno⟩ | ⟨A, B, v', -, e, -⟩
  · have hy' := (hxs y).mp hy
    rw [h.parent y] at hy'
    split at hy'
    · rename_i hyl
      exact absurd (hdisj y hyl) hno
    · simp at hy'
  · exact ⟨v', e⟩

end KernelTree

namespace KernelImage

/-- The sections come one after the other. -/
theorem pagesBefore_apart (img : KernelImage k) {s t : KernelSection} (hne : s ≠ t) :
    img.pagesBefore s + img.pageCount s ≤ img.pagesBefore t ∨
      img.pagesBefore t + img.pageCount t ≤ img.pagesBefore s := by
  cases s <;> cases t <;>
    first
    | exact absurd rfl hne
    | (simp only [pagesBefore, KernelSection.all, ne_eq, reduceCtorEq, not_false_eq_true,
        decide_true, not_true_eq_false, decide_false, List.takeWhile_cons, if_true,
        Bool.false_eq_true, if_false, List.map_cons, List.map_nil, List.sum_cons, List.sum_nil]
       omega)

theorem pagesBefore_le (img : KernelImage k) (s : KernelSection) :
    img.pagesBefore s + img.pageCount s ≤ img.totalPages := by
  cases s <;>
    (simp only [pagesBefore, totalPages, KernelSection.all, ne_eq, reduceCtorEq,
      not_false_eq_true, decide_true, not_true_eq_false, decide_false, List.takeWhile_cons, if_true,
      Bool.false_eq_true, if_false, List.map_cons, List.map_nil, List.sum_cons, List.sum_nil]
     omega)

/-- The first page and the end of a section. -/
theorem section_pages (img : KernelImage k) (s : KernelSection) :
    img.readyVmars.vmarFirstPage (img.mapping s) = img.virtBase / 4096 + img.pagesBefore s ∧
      img.readyVmars.pageEnd (img.mapping s) =
        img.virtBase / 4096 + img.pagesBefore s + img.pageCount s := by
  obtain ⟨h1, h2⟩ := base_mapping img s
  have hfirst : img.readyVmars.vmarFirstPage (img.mapping s) =
      img.virtBase / 4096 + img.pagesBefore s := by
    have hsize : PAGE_SIZE = 4096 := rfl
    rw [vmarFirstPage_eq, h1, sectionStart, hsize]
    omega
  exact ⟨hfirst, by rw [pageEnd, hfirst, h2]⟩

theorem directMap_pages (img : KernelImage k) :
    img.readyVmars.vmarFirstPage img.directMap = k.d.base / 4096 ∧
      img.readyVmars.pageEnd img.directMap = k.d.base / 4096 + k.d.pageCount := by
  obtain ⟨h1, h2⟩ := base_directMap img
  rw [pageEnd, vmarFirstPage_eq, h1, h2]
  exact ⟨rfl, rfl⟩

variable (htop : img.virtBase + img.totalPages * 4096 ≤ 2 ^ 64)
  (hdirect : k.d.base + k.d.pageCount * 4096 ≤ img.virtBase)

include hdirect in
theorem ready_apart (hx : x ∈ img.directMap :: KernelSection.all.map img.mapping)
    (hy : y ∈ img.directMap :: KernelSection.all.map img.mapping) (hne : x ≠ y) :
    img.readyVmars.ApartFrom x y := by
  obtain ⟨h1, h2⟩ := directMap_pages img
  have hdvd := img.virtBase_dvd
  rw [Memmap.PAGE_SIZE_eq] at hdvd
  rcases List.mem_cons.mp hx with rfl | hx <;> rcases List.mem_cons.mp hy with rfl | hy
  · exact absurd rfl hne
  · obtain ⟨t, -, rfl⟩ := List.mem_map.mp hy
    obtain ⟨h3, h4⟩ := section_pages img t
    rw [Vmars.ApartFrom, h2, h3]
    omega
  · obtain ⟨s, -, rfl⟩ := List.mem_map.mp hx
    obtain ⟨h3, h4⟩ := section_pages img s
    rw [Vmars.ApartFrom, h2, h3]
    omega
  · obtain ⟨s, -, rfl⟩ := List.mem_map.mp hx
    obtain ⟨t, -, rfl⟩ := List.mem_map.mp hy
    obtain ⟨h3, h4⟩ := section_pages img s
    obtain ⟨h5, h6⟩ := section_pages img t
    have hst : s ≠ t := by
      rintro rfl
      exact hne rfl
    have := pagesBefore_apart img hst
    rw [Vmars.ApartFrom, h3, h4, h5, h6]
    omega

include htop hdirect in
theorem ready_inside (hx : x ∈ img.directMap :: KernelSection.all.map img.mapping) :
    0xFFFF800000000 ≤ img.readyVmars.vmarFirstPage x ∧
      img.readyVmars.pageEnd x ≤ 2 ^ 52 := by
  obtain ⟨h1, h2⟩ := directMap_pages img
  have hdvd := img.virtBase_dvd
  have hge := img.virtBase_ge
  have hk : KERNEL_REGION_BASE = 0xFFFF800000000000 := rfl
  have hkd := k.kernel_le
  rw [Memmap.PAGE_SIZE_eq] at hdvd
  rcases List.mem_cons.mp hx with rfl | hx
  · rw [h1, h2]
    omega
  · obtain ⟨s, -, rfl⟩ := List.mem_map.mp hx
    obtain ⟨h3, h4⟩ := section_pages img s
    have := pagesBefore_le img s
    rw [h3, h4]
    omega

variable (img) in
include htop hdirect in
/-- The calls of `vmar_link` return. -/
theorem linkKernel_isSome (hdm : 0 < k.d.pageCount) :
    ∃ v, img.readyVmars.linkKernel k img = some v ∧
      KernelTree img (img.directMap :: KernelSection.all.map img.mapping) v := by
  have hnd : (img.directMap :: KernelSection.all.map img.mapping).Nodup :=
    List.Nodup.sublist (List.Sublist.cons_cons _ (List.sublist_cons_self _ _)) img.distinct
  suffices h : ∃ v, img.readyVmars.linkKernel k img = some v ∧ True by
    obtain ⟨v, e, -⟩ := h
    exact ⟨v, e, KernelTree.linkKernel hdm e⟩
  obtain ⟨v, e, -⟩ := foldlM_isSome (img.directMap :: KernelSection.all.map img.mapping)
    (f := fun v x => v.vmarLink k.kernelRegion x) (I := fun done v => KernelTree img done v)
    (KernelTree.start img) fun x rest done heq v h => by
      have hx : x ∈ img.directMap :: KernelSection.all.map img.mapping :=
        heq ▸ List.mem_append_right _ List.mem_cons_self
      have hnew : x ∉ done := fun hd =>
        List.disjoint_of_nodup_append (heq ▸ hnd) hd List.mem_cons_self
      have hmem : ∀ y ∈ done, y ∈ img.directMap :: KernelSection.all.map img.mapping :=
        fun y hy => heq ▸ List.mem_append_left _ hy
      have hpages := fun y (hy : y ∈ img.directMap :: KernelSection.all.map img.mapping) =>
        h.pages_eq (buddyBitmap_ne hy)
      have hne := buddyBitmap_ne hx
      obtain ⟨h1, h2⟩ := h.base x hne
      obtain ⟨hn, hd⟩ := KernelTree.ready_range hdm hx
      have hstatic : x ∈ img.statics := by
        rcases List.mem_cons.mp hx with rfl | hx
        · exact List.mem_cons_self
        · exact List.mem_cons_of_mem _ (List.mem_cons_of_mem _ hx)
      obtain ⟨hp1, hp2⟩ := hpages x hx
      obtain ⟨hi1, hi2⟩ := ready_inside htop hdirect hx
      obtain ⟨hr1, hr2⟩ := h.kernelRegion_pages
      obtain ⟨v', e⟩ := h.vmarLink_isSome hstatic hnew (h2 ▸ hn) (h1 ▸ hd) (by
        rw [hp1, hp2, hr1, hr2]
        exact ⟨hi1, hi2⟩) fun y hy => by
          have hxy : x ≠ y := by
            rintro rfl
            exact hnew hy
          have := ready_apart hdirect hx (hmem y hy) hxy
          rwa [Vmars.ApartFrom, (hpages y (hmem y hy)).1, (hpages y (hmem y hy)).2, hp1, hp2]
      exact ⟨v', e, h.vmarLink hstatic hnew hne (h2 ▸ hn) (h1 ▸ hd) e⟩
  exact ⟨v, e, trivial⟩

end KernelImage

/-- The pages that the boot code has left are available after the hand-over. -/
theorem EarlyOk.earlyPhysAddMemory_available {d : DirectMap} {entries : Memmap} {root : ℕ}
    {b b' : Boot} {xs : List ℕ} (h : EarlyOk d entries root b xs)
    (he : b.earlyPhysAddMemory d entries = some b') :
    b'.clients.phys.acct.available = xs.length := by
  obtain ⟨htop, hpages⟩ := h.watermark.handOver h.valid
  have hnone : b.clients.added = ∅ := by simp [Clients.added, h.initial.2.2.2.2.1]
  obtain ⟨t, e, ht, -, hcom, htot, hres, -, -⟩ := earlyAddEntries_spec h.valid
    (fun u hu ht => by
      rw [h.direct.pageCount_mul h.valid]
      exact h.valid.le_topAddress hu (by simp [mapped, ht]))
    htop (.start h.initial) (by simp [hnone])
  rw [h.initial.2.2.1] at hcom htot hres
  simp only [hpages] at hcom htot hres
  obtain ⟨-, fl, ho⟩ := Clients.good_of_reachable ht
  have hbal : t.phys.acct.available + t.phys.acct.reserved + t.phys.acct.committed =
      t.phys.acct.total := ho.balanced
  simp only [Boot.earlyPhysAddMemory, e, Option.bind_some, Clients.exec, Option.map_some,
    Option.some.injEq] at he
  rw [← he]
  change t.phys.acct.available = _
  omega

namespace VirtState

variable {vs vs' : VirtState} {m n q virt phys flags : ℕ}

/-- The boot code has so many pages left. -/
def Left (k : Kernel) (vs : VirtState) (m : ℕ) : Prop :=
  vs.handedOver = false ∧
    ∃ xs, EarlyOk k.d k.entries vs.pageTable vs.boot xs ∧ m ≤ xs.length

theorem Left.earlyMap (h : vs.Left k (m + 3)) (virt : ℕ) (hlen : n ≤ 2 ^ 36)
    (hq : ∀ i < n, pageNumber (pageAddr virt i) / 512 = q)
    (h0 : ∀ i < n, vs.flatMap k.d (pageNumber (pageAddr virt i)) = 0) (phys flags : ℕ) :
    ∃ vs', vs.exec k.d k.entries (.earlyMap virt phys n flags) = some vs' ∧ vs'.Left k m ∧
      Outside (rangeOf virt n) (vs.flatMap k.d) (vs'.flatMap k.d) := by
  obtain ⟨hl, xs, hok, hle⟩ := h
  obtain ⟨b', xs', e, ht, hle'⟩ := hok.earlyVirtMap_isSome (by omega) hlen hq h0 phys flags
  refine ⟨{ vs with boot := b' }, by rw [exec, e, Option.map_some], ⟨hl, xs', ht.ok, by omega⟩,
    ht.leaf⟩

variable (img) in
/-- The sections are mapped if each of them is in one table. -/
theorem Left.earlyMapKernel (h : vs.Left k (m + 24))
    (hq : ∀ s, ∀ i < img.pageCount s, pageNumber (pageAddr (img.sectionStart s) i) / 512 =
      pageNumber (img.sectionStart s) / 512)
    (htop : img.totalPages ≤ 2 ^ 36) (h0 : ∀ n < 2 ^ 36, vs.flatMap k.d n = 0) :
    ∃ vs', vs.earlyMapKernel k img img.readyVmars = some vs' ∧ vs'.Left k m ∧
      ∀ n < 2 ^ 36, vs'.flatMap k.d n ≠ 0 →
        ∃ s, n ∈ rangeOf (img.sectionStart s) (img.pageCount s) := by
  obtain ⟨vs', e, hl, hn⟩ := foldlM_isSome KernelSection.all
    (f := fun (vs : VirtState) s =>
      vs.earlyMapVmar k img img.readyVmars (img.mapping s) s.perms)
    (I := fun done (vs : VirtState) => vs.Left k (m + 3 * (8 - done.length)) ∧
      ∀ n < 2 ^ 36, vs.flatMap k.d n ≠ 0 →
        ∃ s ∈ done, n ∈ rangeOf (img.sectionStart s) (img.pageCount s))
    ⟨h, fun n hn hne => absurd (h0 n hn) hne⟩ fun s rest done heq vs hI => by
      obtain ⟨hleft, hdone⟩ := hI
      have hlen : done.length + 1 ≤ 8 := by
        have := congrArg List.length heq
        rw [List.length_append, List.length_cons, show KernelSection.all.length = 8 from rfl] at this
        omega
      have hnew : s ∉ done := fun hd =>
        List.disjoint_of_nodup_append (heq ▸ (by decide : KernelSection.all.Nodup)) hd
          List.mem_cons_self
      have hcount : img.pageCount s ≤ 2 ^ 36 := by
        have := KernelImage.pagesBefore_le img s
        omega
      obtain ⟨h1, h2⟩ := KernelImage.base_mapping img s
      have hleft' : vs.Left k (m + 3 * (8 - (done ++ [s]).length) + 3) := by
        rw [List.length_append, List.length_singleton]
        rwa [show m + 3 * (8 - (done.length + 1)) + 3 = m + 3 * (8 - done.length) by omega]
      obtain ⟨vs', e, hl', hout⟩ := hleft'.earlyMap _ hcount (hq s) (fun i hi => by
        -- the sections before are apart
        by_contra hne
        obtain ⟨t, ht, j, hj, hpage⟩ := hdone _ (pageNumber_lt _) hne
        have hst : s ≠ t := by
          rintro rfl
          exact hnew ht
        have hap := KernelImage.pagesBefore_apart img hst
        have hs := KernelImage.pagesBefore_le img s
        have ht' := KernelImage.pagesBefore_le img t
        have hsize : PAGE_SIZE = 4096 := rfl
        rw [pageNumber_pageAddr, pageNumber_pageAddr, KernelImage.sectionStart,
          KernelImage.sectionStart, hsize] at hpage
        omega) ((sub64 (img.sectionStart s) img.virtBase + img.physBase) % 2 ^ 64)
        (sectionFlags s.perms)
      refine ⟨vs', ?_, hl', fun n hn hne => ?_⟩
      · rw [VirtState.earlyMapVmar, h1, h2]
        exact e
      · by_cases hr : n ∈ rangeOf (img.sectionStart s) (img.pageCount s)
        · exact ⟨s, List.mem_append_right _ (List.mem_singleton_self s), hr⟩
        · rw [hout n hn hr] at hne
          obtain ⟨t, ht, hnt⟩ := hdone n hn hne
          exact ⟨t, List.mem_append_left _ ht, hnt⟩
  have hzero : m + 3 * (8 - KernelSection.all.length) = m := rfl
  refine ⟨vs', e, hzero ▸ hl, fun n hlt hne => ?_⟩
  obtain ⟨s, -, hs⟩ := hn n hlt hne
  exact ⟨s, hs⟩

theorem Left.earlyMapBitmapPage (h : vs.Left k (m + 4)) (addr : ℕ) :
    ∃ vs', vs.exec k.d k.entries (.earlyMapBitmapPage addr) = some vs' ∧ vs'.Left k m := by
  obtain ⟨hl, xs, hok, hle⟩ := h
  obtain ⟨b', e⟩ := hok.earlyMapBitmapPage_isSome (by omega) addr
  obtain ⟨xs', ht, hle', -⟩ := hok.earlyMapBitmapPage e
  exact ⟨{ vs with boot := b' }, by rw [exec, e, Option.map_some], hl, xs', ht.ok, by omega⟩

end VirtState

/-- Sixty-four usable pages above the first megabyte. -/
def smallMemmap : Memmap := [⟨0x100000, 0x40000, .usable⟩]

theorem smallMemmap_valid : smallMemmap.Valid where
  sorted := by simp [smallMemmap]
  base_dvd := by decide
  length_dvd := by decide
  pos := by decide

def smallDirectMap : DirectMap where
  base := KERNEL_REGION_BASE
  pageCount := 0x140
  levels := 0xFFFFFFFF80007000
  base_pos := by decide
  base_aligned := ⟨0x7FFFC000000, rfl⟩
  top := by decide
  levels_outside := Or.inr (by decide)

theorem notMem_smallDirectMap {x : ℕ} (hx : 0xFFFFFFFF80000000 ≤ x) : x ∉ smallDirectMap.range := by
  simp only [DirectMap.range, smallDirectMap, KERNEL_REGION_BASE, Set.mem_Ico]
  omega

/-- The size and the alignment of `vmar_t`. -/
def vmarType : CType := ⟨248, 8, ⟨3, rfl⟩, ⟨31, rfl⟩⟩

/-- A kernel with the small memory map. -/
def smallKernel : Kernel where
  d := smallDirectMap
  entries := smallMemmap
  alloc := ⟨0xFFFFFFFF80007100, 0xFFFFFFFF80007108, 0xFFFFFFFF80007118, 0xFFFFFFFF80007128⟩
  vmarType := vmarType
  kernelRegion := 0xFFFFFFFF80007200
  userRegion := 0xFFFFFFFF80007300
  valid := smallMemmap_valid
  hasDirectMap := show 0x140 = 0x140000 / PAGE_SIZE by decide
  kernel_le := le_rfl
  usable_pos := by decide
  alloc_ok := by
    refine ⟨by decide, by decide, by decide, fun h hh => notMem_smallDirectMap ?_⟩
    simp only [List.mem_cons, List.not_mem_nil, or_false] at hh
    omega
  defineAlloc := ⟨by decide, by decide, by decide, by decide, by decide, by decide, by decide⟩
  regions_ne := by decide
  kernelRegion_outside := notMem_smallDirectMap (by decide)
  userRegion_outside := notMem_smallDirectMap (by decide)

/-- Sections of one page each. -/
def smallImage : KernelImage smallKernel where
  directMap := 0xFFFFFFFF80007400
  buddyBitmap := 0xFFFFFFFF80007500
  mapping := fun
    | .limineRequests => 0xFFFFFFFF80007600
    | .initText => 0xFFFFFFFF80007700
    | .initRodata => 0xFFFFFFFF80007800
    | .initData => 0xFFFFFFFF80007900
    | .text => 0xFFFFFFFF80007A00
    | .rodata => 0xFFFFFFFF80007B00
    | .lateRodata => 0xFFFFFFFF80007C00
    | .data => 0xFFFFFFFF80007D00
  pageCount := fun _ => 1
  physBase := 0x200000
  virtBase := 0xFFFFFFFF80000000
  distinct := by decide
  static := by
    intro x hx
    simp only [KernelSection.all, List.map_cons, List.map_nil, List.mem_cons, List.not_mem_nil,
      or_false] at hx
    refine ⟨notMem_smallDirectMap (by omega), ?_⟩
    simp only [Kernel.roots, smallKernel, Set.mem_insert_iff, Set.mem_singleton_iff]
    omega
  pageCount_pos := fun _ => Nat.one_pos
  virtBase_dvd := by decide
  virtBase_ge := le_rfl

/-- Before the boot code runs. -/
def smallStart : Vmm where
  run := ⟨⟨⟨id, id⟩, fun _ => 0, fun _ => 0, ⟨emptyBoot, 0, false, ∅⟩, []⟩, []⟩
  vmars := smallImage.initVmars

theorem smallStart_start : smallStart.Start smallKernel smallImage where
  boot := emptyBoot_initial _
  created := rfl
  live := rfl
  rings := fun h _ => ⟨List.nodup_singleton h, rfl, rfl⟩
  vmars := rfl

/-- The place of the bitmap of the small kernel. -/
theorem smallImage_fits {v : Vmars} {xs : List ℕ}
    (h : KernelTree smallImage (smallImage.directMap :: KernelSection.all.map smallImage.mapping) v)
    (hxs : ∀ x, x ∈ xs ↔ v.parent x = some smallKernel.kernelRegion) :
    v.Wanted smallKernel.kernelRegion VMAR_ANY_OFFSET 1 xs 0xFFFF800000140 := by
  obtain ⟨hr1, hr2⟩ := h.kernelRegion_pages
  have hpages := fun y
      (hy : y ∈ smallImage.directMap :: KernelSection.all.map smallImage.mapping) =>
    h.pages_eq (KernelImage.buddyBitmap_ne hy)
  have hmem := fun x => (hxs x).trans (h.parent_iff x)
  have hdm : v.vmarFirstPage smallImage.directMap = 0xFFFF800000000 ∧
      v.pageEnd smallImage.directMap = 0xFFFF800000140 := by
    obtain ⟨h1, h2⟩ := hpages _ List.mem_cons_self
    obtain ⟨h7, h8⟩ := KernelImage.directMap_pages smallImage
    exact ⟨h1.trans h7, h2.trans h8⟩
  have hsec : ∀ s, 0xFFFFFFFF80000 ≤ v.vmarFirstPage (smallImage.mapping s) := by
    intro s
    have hs : smallImage.mapping s ∈
        smallImage.directMap :: KernelSection.all.map smallImage.mapping :=
      List.mem_cons_of_mem _ (List.mem_map_of_mem (by cases s <;> decide))
    obtain ⟨h7, -⟩ := KernelImage.section_pages smallImage s
    rw [(hpages _ hs).1, h7]
    exact Nat.le_add_right _ _
  rw [Wanted, if_pos rfl, hr1, hr2]
  refine ⟨⟨by norm_num, by norm_num, fun x hx => ?_⟩, fun q hq => ?_⟩
  · rcases List.mem_cons.mp ((hmem x).mp hx) with rfl | hx
    · exact Or.inr hdm.2.le
    · obtain ⟨s, -, rfl⟩ := List.mem_map.mp hx
      have := hsec s
      omega
  · rcases hq.2.2 smallImage.directMap ((hmem _).mpr List.mem_cons_self) with hlt | hle
    · rw [hdm.1] at hlt
      have := hq.1
      omega
    · rwa [hdm.2] at hle

/-- `early_virt_init` returns for the small kernel, and there is memory left. -/
theorem exists_started : ∃ s, smallStart.earlyVirtInit smallKernel smallImage = some s ∧
    1 ≤ s.virt.phys.acct.available := by
  have hstart := smallStart_start
  obtain ⟨b, e0, -⟩ := Watermark.earlyPhysAllocPage (d := smallDirectMap) (b := emptyBoot)
    smallMemmap_valid (show Watermark smallMemmap ⟨0, 0, 0⟩ (0x100000 :: _) from .start)
  obtain ⟨x, xs, hxs, hok, hzero⟩ := EarlyOk.start smallMemmap_valid smallKernel.hasDirectMap
    smallKernel.kernel_le hstart.boot e0
  have hlen : xs.length = 63 := by
    have : (usablePages smallMemmap).length = 64 := by
      rw [length_usablePages]
      decide
    rw [hxs, List.length_cons] at this
    omega
  obtain ⟨vs0, hvs0⟩ : ∃ vs0 : VirtState,
      vs0 = ⟨b, smallDirectMap.physToDirect 0x100000, false, ∅⟩ := ⟨_, rfl⟩
  have hleft0 : vs0.Left smallKernel (39 + 24) := by
    rw [hvs0]
    exact ⟨rfl, xs, hok, hlen.ge⟩
  -- the sections
  obtain ⟨vs1, e1, hleft1, hn1⟩ := hleft0.earlyMapKernel smallImage (fun s i hi => by
      obtain rfl : i = 0 := Nat.lt_one_iff.mp hi
      rw [pageAddr, zero_mul, add_zero, pageNumber, pageNumber]
      omega) (by decide) (by rw [hvs0]; exact hzero)
  -- the direct map
  have hfilter : smallKernel.entries.filter Memmap.mapped = smallMemmap := by decide
  obtain ⟨vs2, e2, hleft2, -⟩ := VirtState.Left.earlyMap (k := smallKernel) (m := 36) (n := 64)
    (q := 0x4000000) hleft1 0xFFFF800000100000 (by norm_num)
    (fun i hi => by
      rw [pageNumber_pageAddr]
      omega)
    (fun i hi => by
      by_contra hne
      obtain ⟨s, j, hj, hpage⟩ := hn1 _ (pageNumber_lt _) hne
      have hs := KernelImage.pagesBefore_le smallImage s
      have htot : smallImage.totalPages = 8 := by decide
      rw [pageNumber_pageAddr, pageNumber_pageAddr, KernelImage.sectionStart,
        show smallImage.virtBase = 0xFFFFFFFF80000000 from rfl, Memmap.PAGE_SIZE_eq] at hpage
      omega)
    0x100000 directFlags
  have e2' : vs1.earlyMapDirectMap smallKernel = some vs2 := by
    rw [VirtState.earlyMapDirectMap, hfilter, smallMemmap, List.foldlM_cons]
    exact (congrArg (· >>= fun vs => some vs) e2).trans rfl
  -- the vmars
  obtain ⟨v1, e3, htree⟩ := KernelImage.linkKernel_isSome smallImage (by decide)
    (by decide) (by decide)
  -- the bitmap
  have hcount : bitmapPageCount smallKernel.d = 1 := by decide
  have hstatic : smallImage.buddyBitmap ∈ smallImage.statics :=
    List.mem_cons_of_mem _ List.mem_cons_self
  have hnew : smallImage.buddyBitmap ∉
      smallImage.directMap :: KernelSection.all.map smallImage.mapping := fun hc =>
    KernelImage.buddyBitmap_ne hc rfl
  obtain ⟨xs', hok', hxs'⟩ := htree.tree.children smallKernel.kernelRegion
  obtain ⟨v2, e4⟩ : ∃ v2, v1.vmarAllocateStatic smallKernel.kernelRegion smallImage.buddyBitmap
      VMAR_ANY_OFFSET (bitmapPageCount smallKernel.d) = some (.ok (), v2) := by
    rcases htree.tree.vmarAllocateStatic VMAR_ANY_OFFSET (bitmapPageCount smallKernel.d)
      (Or.inl (KernelTree.kernelRegion_mem v1)) (htree.notMem_tree hstatic hnew)
      (KernelImage.static_ne hstatic).1 (htree.unmapped_eq _) hok' hxs' with
      ⟨e, base, m, -, hno⟩ | ⟨page, v2, e, -⟩
    · refine absurd (hcount ▸ smallImage_fits htree hxs') (hno ?_ (by omega)
        (htree.unmapped_eq _) _)
      exact (htree.tree.root _ (Or.inl rfl)).2
    · exact ⟨v2, e⟩
  obtain ⟨vs3, e5, hleft3⟩ : ∃ vs3, vs2.earlyMapBitmap smallKernel (v2.base smallImage.buddyBitmap)
      ⟨0x100000, 0x40000, .usable⟩ = some vs3 ∧ vs3.Left smallKernel 32 := by
    have hstart : bitmapStart ⟨0x100000, 0x40000, .usable⟩ = 0 := by decide
    have hend : bitmapEnd ⟨0x100000, 0x40000, .usable⟩ = 4096 := by decide
    have hn : divRoundUp ((v2.base smallImage.buddyBitmap + 4096) % 2 ^ 64 -
        (v2.base smallImage.buddyBitmap + 0) % 2 ^ 64) PAGE_SIZE ≤ 1 := by
      rw [divRoundUp, Memmap.PAGE_SIZE_eq]
      omega
    rw [VirtState.earlyMapBitmap, hstart, hend]
    interval_cases h : divRoundUp ((v2.base smallImage.buddyBitmap + 4096) % 2 ^ 64 -
        (v2.base smallImage.buddyBitmap + 0) % 2 ^ 64) PAGE_SIZE
    · obtain ⟨hl, ys, hys, hle⟩ := hleft2
      exact ⟨vs2, rfl, hl, ys, hys, by omega⟩
    · exact VirtState.Left.earlyMapBitmapPage hleft2 _
  -- the hand-over
  obtain ⟨hl, ys, hys, hle⟩ := hleft3
  obtain ⟨b', e6, -⟩ := hys.earlyPhysAddMemory
  obtain ⟨vs4, e7⟩ : ∃ vs4, vs3.exec smallKernel.d smallKernel.entries .earlyAddMemory = some vs4 :=
    ⟨_, by rw [VirtState.exec, e6, Option.map_some]⟩
  have e45 : vs2.earlyCreateBuddyBitmap smallKernel smallImage v1 = some (v2, vs3) := by
    rw [VirtState.earlyCreateBuddyBitmap, e4, hfilter, smallMemmap]
    simp only [Option.bind_eq_bind, Option.bind_some, List.foldlM_cons, List.foldlM_nil, e5]
    rfl
  have hav : vs4.phys.acct.available = ys.length := by
    rw [VirtState.exec, e6, Option.map_some] at e7
    rw [← Option.some.inj e7]
    exact hys.earlyPhysAddMemory_available e6
  refine ⟨(smallStart.setVmars v2).setVirt vs4, ?_, by change 1 ≤ vs4.phys.acct.available; omega⟩
  have hready : (smallStart.vmars.initKernelRegion smallKernel).initDirectMap smallKernel
      smallImage = smallImage.readyVmars := rfl
  rw [hvs0] at e1
  rw [Vmm.earlyVirtInit, hready]
  simp only [Option.bind_eq_bind]
  rw [show smallStart.virt.boot.earlyPhysAllocPage smallKernel.d smallKernel.entries =
    some (smallDirectMap.physToDirect 0x100000, b) from e0, Option.bind_some]
  simp only [e1, e2', e3, e45, e7, Option.bind_some]

/-- The small kernel boots, and there is memory left. -/
theorem exists_initial_available : ∃ r, VmmRun.Initial smallKernel r ∧
    1 ≤ r.vmm.virt.phys.acct.available := by
  obtain ⟨s, he, hav⟩ := exists_started
  exact ⟨⟨s, fun _ => 0⟩, ⟨smallImage, smallStart, smallStart_start, he, rfl⟩, hav⟩

/-- The small kernel boots. -/
theorem exists_initial : ∃ r, VmmRun.Initial smallKernel r := by
  obtain ⟨r, h, -⟩ := exists_initial_available
  exact ⟨r, h⟩

end Tomato
