import Tomato.Boot.InitEntries
import Tomato.Boot.InitTree

/-!
# Runs from the boot on

What `early_virt_init` leaves behind is what the calls on vmars rely on, so that the
invariant of their runs holds in every state that is reachable from the boot.
-/

namespace Tomato

open RbTree Ranges Forest Transition Loops Blocks Vmars Memmap

variable {k : Kernel} {img : KernelImage k} {s s' : Vmm} {x n : ℕ}

/-- The vmars that are linked at boot. -/
def KernelImage.linked (img : KernelImage k) : List ℕ :=
  img.directMap :: KernelSection.all.map img.mapping ++ [img.buddyBitmap]

namespace Vmm

/-- What `early_virt_init` leaves behind. -/
structure Booted (k : Kernel) (img : KernelImage k) (s : Vmm) : Prop where
  tree : KernelTree img img.linked s.vmars
  bitmapCount : s.vmars.pageCount img.buddyBitmap = bitmapPageCount k.d
  bitmapPlace : ∃ v xs page,
    KernelTree img (img.directMap :: KernelSection.all.map img.mapping) v ∧
      v.ChildrenOk k.kernelRegion xs ∧ (∀ x, x ∈ xs ↔ v.parent x = some k.kernelRegion) ∧
      v.Wanted k.kernelRegion VMAR_ANY_OFFSET (bitmapPageCount k.d) xs page ∧
      s.vmars.base img.buddyBitmap = page * 4096
  reach : Reachable (VirtState.Initial k.d k.entries) (VirtState.Step k.d k.entries) s.virt
  handedOver : s.virt.handedOver = true
  entry : ∀ n < 2 ^ 36, s.virt.flatMap k.d n ≠ 0 →
    EarlyEntry img (s.vmars.base img.buddyBitmap) n (s.virt.flatMap k.d n)
  bootPages : ∀ n < 2 ^ 36, n ∈ s.virt.bootPages ↔ s.virt.flatMap k.d n ≠ 0
  directMapped : ∀ e ∈ k.entries, Memmap.mapped e → VirtState.DirectMapped k s.virt e
  bitmapMapped : ∀ e ∈ k.entries, Memmap.mapped e →
    s.vmars.base img.buddyBitmap + bitmapEnd e < 2 ^ 64 →
      VirtState.BitmapMapped k (s.vmars.base img.buddyBitmap) s.virt e
  reserved : s.virt.phys.acct.reserved = 0
  created : s.run.slabs.created = []
  live : s.run.live = []
  rings : ∀ h ∈ [k.alloc.partialList, k.alloc.fullList, k.alloc.emptyList],
    s.run.slabs.links.Ring h []

/-- There is memory, as the page table has a page. -/
theorem pageCount_pos {b boot : Boot} {pageTable : ℕ} (h0 : b.Initial k.d)
    (he : b.earlyPhysAllocPage k.d k.entries = some (pageTable, boot)) : 0 < k.d.pageCount := by
  obtain ⟨x, xs, hxs, -⟩ := EarlyOk.start k.valid k.hasDirectMap k.kernel_le h0 he
  have hx : x ∈ usablePages k.entries := hxs ▸ List.mem_cons_self
  have hr := (usablePage_spec k.valid k.hasDirectMap hx).2
    (show k.d.physToDirect x ∈ pageCells (k.d.physToDirect x) by simp [pageCells])
  simp only [DirectMap.physToDirect, DirectMap.range, Set.mem_Ico] at hr
  omega

/-- `early_create_buddy_bitmap`. -/
theorem earlyCreateBuddyBitmap {v v' : Vmars} {vs vs' : VirtState}
    (hv : KernelTree img (img.directMap :: KernelSection.all.map img.mapping) v)
    (hf : ∀ bitmap, VirtState.Filling k (EarlyEntry img bitmap) vs)
    (he : vs.earlyCreateBuddyBitmap k img v = some (v', vs')) :
    KernelTree img img.linked v' ∧ v'.pageCount img.buddyBitmap = bitmapPageCount k.d ∧
      (∃ xs page, v.ChildrenOk k.kernelRegion xs ∧
        (∀ x, x ∈ xs ↔ v.parent x = some k.kernelRegion) ∧
        v.Wanted k.kernelRegion VMAR_ANY_OFFSET (bitmapPageCount k.d) xs page ∧
        v'.base img.buddyBitmap = page * 4096) ∧
      VirtState.Filling k (EarlyEntry img (v'.base img.buddyBitmap)) vs' ∧
      VirtState.Keeps k vs vs' ∧ ∀ e ∈ k.entries, Memmap.mapped e →
        v'.base img.buddyBitmap + bitmapEnd e < 2 ^ 64 →
          VirtState.BitmapMapped k (v'.base img.buddyBitmap) vs' e := by
  obtain ⟨⟨res, v1⟩, e1, he⟩ := Option.bind_eq_some_iff.mp he
  cases res with
  | error err => simp at he
  | ok u =>
    obtain ⟨vs1, e2, he⟩ := Option.bind_eq_some_iff.mp he
    obtain ⟨rfl, rfl⟩ := Prod.mk.inj (Option.some.inj he)
    obtain ⟨xs, page, hok, hxs, hw, -, htree, hbase, hcount⟩ := hv.linkBitmap e1
    have hall := foldlM_invariant (I := fun done vs' =>
      VirtState.Filling k (EarlyEntry img (v1.base img.buddyBitmap)) vs' ∧
        VirtState.Keeps k vs vs' ∧ ∀ e ∈ done, v1.base img.buddyBitmap + bitmapEnd e < 2 ^ 64 →
          VirtState.BitmapMapped k (v1.base img.buddyBitmap) vs' e)
      ⟨hf _, .refl k vs, by simp⟩ (fun e rest done heq vs1 vs2 h1 ex => ?_) e2
    · exact ⟨htree, hcount, ⟨xs, page, hok, hxs, hw, hbase⟩, hall.1, hall.2.1, fun e he hm =>
        hall.2.2 e (List.mem_filter.mpr ⟨he, hm⟩)⟩
    obtain ⟨hmem, hm⟩ := List.mem_filter.mp (heq ▸ List.mem_append_right _ List.mem_cons_self)
    obtain ⟨h2, hk2, hb2⟩ := h1.1.earlyMapBitmap hmem hm ex
    refine ⟨h2, h1.2.1.trans hk2, fun u hu hno => ?_⟩
    rcases List.mem_append.mp hu with hu | hu
    · exact hk2.bitmapMapped (h1.2.2 u hu hno)
    · obtain rfl := List.mem_singleton.mp hu
      exact hb2 hno

/-- `early_virt_init`. -/
theorem Start.booted (h : s.Start k img) (he : s.earlyVirtInit k img = some s') :
    s'.Booted k img := by
  simp only [earlyVirtInit, Option.bind_eq_bind] at he
  obtain ⟨⟨pageTable, boot⟩, e0, he⟩ := Option.bind_eq_some_iff.mp he
  obtain ⟨vs1, e1, he⟩ := Option.bind_eq_some_iff.mp he
  obtain ⟨vs2, e2, he⟩ := Option.bind_eq_some_iff.mp he
  obtain ⟨v1, e3, he⟩ := Option.bind_eq_some_iff.mp he
  obtain ⟨⟨v2, vs3⟩, e4, he⟩ := Option.bind_eq_some_iff.mp he
  obtain ⟨vs4, e5, he⟩ := Option.bind_eq_some_iff.mp he
  obtain rfl := Option.some.inj he
  simp only at e0 e1 e2 e3 e4 e5
  rw [h.vmars] at e1 e3
  -- the entries
  have hb : ∀ t, img.readyVmars.base (img.mapping t) = img.sectionStart t := fun t =>
    (KernelImage.base_mapping img t).1
  have hc : ∀ t, img.readyVmars.pageCount (img.mapping t) = img.pageCount t := fun t =>
    (KernelImage.base_mapping img t).2
  have hstart := fun bitmap => VirtState.Filling.start h.boot e0 (EarlyEntry img bitmap)
  have hkernel := fun bitmap => (hstart bitmap).earlyMapKernel hb hc e1
  have hdirect := fun bitmap => (hkernel bitmap).1.earlyMapDirectMap e2
  -- the vmars
  have htree := KernelTree.linkKernel (pageCount_pos h.boot e0) e3
  obtain ⟨hlinked, hcount, ⟨xs, page, hok, hxs, hw, hbase⟩, hf, hkeeps, hbit⟩ :=
    earlyCreateBuddyBitmap htree (fun bitmap => (hdirect bitmap).1) e4
  -- the hand-over
  have hvalid : vs3.Valid k.d .earlyAddMemory := hf.early
  have hout : ∀ n < 2 ^ 36, vs4.flatMap k.d n = vs3.flatMap k.d n := fun n hn =>
    (VirtState.good_exec hf.good hvalid e5).2 n hn (Set.notMem_empty n)
  have hk4 : VirtState.Keeps k vs3 vs4 := fun n hn _ => hout n hn
  obtain ⟨ys, hearly⟩ := hf.good.early hf.early
  obtain ⟨b, eb, -, -, hres, -⟩ := hearly.earlyPhysAddMemory
  have hvs4 : vs4 = { vs3 with
      boot := b, handedOver := true, bootPages := {n | vs3.flatMap k.d n ≠ 0} } := by
    rw [VirtState.exec, eb] at e5
    exact (Option.some.inj e5).symm
  refine ⟨hlinked, hcount, ⟨v1, xs, page, htree, hok, hxs, hw, hbase⟩,
    hf.reach.next ⟨_, hvalid, e5⟩, by rw [hvs4]; rfl, fun n hn hne => ?_, fun n hn => ?_,
    fun e he hm => ?_, fun e he hm hno => hk4.bitmapMapped (hbit e he hm hno), ?_, h.created,
    h.live, h.rings⟩
  · rw [show (((s.setVmars v2).setVirt vs4).virt) = vs4 from rfl, hout n hn] at hne ⊢
    exact hf.entry n hn hne
  · rw [show (((s.setVmars v2).setVirt vs4).virt) = vs4 from rfl, hout n hn, hvs4]
    exact Iff.rfl
  · exact (hkeeps.trans hk4).directMapped ((hdirect 0).2.2 e he hm)
  · rw [show (((s.setVmars v2).setVirt vs4).virt) = vs4 from rfl, hvs4]
    exact hres

namespace Booted

theorem special (h : s.Booted k img) (hx : x ∈ img.linked) :
    s.vmars.kind x = .special ∧ s.vmars.parent x ≠ none := by
  refine ⟨h.tree.kind_static ?_, by rw [h.tree.parent x, if_pos hx]; simp⟩
  rcases List.mem_append.mp hx with hx | hx
  · rcases List.mem_cons.mp hx with rfl | hx
    · exact List.mem_cons_self
    · exact List.mem_cons_of_mem _ (List.mem_cons_of_mem _ hx)
  · rw [List.mem_singleton.mp hx]
    exact List.mem_cons_of_mem _ List.mem_cons_self

theorem mem_linked (hp : s.vmars.parent x ≠ none) (h : s.Booted k img) : x ∈ img.linked := by
  by_contra hx
  exact hp (by rw [h.tree.parent x, if_neg hx])

theorem directMap_mem (img : KernelImage k) : img.directMap ∈ img.linked := List.mem_cons_self

theorem buddyBitmap_mem (img : KernelImage k) : img.buddyBitmap ∈ img.linked :=
  List.mem_append_right _ (List.mem_singleton_self _)

theorem mapping_mem (img : KernelImage k) (t : KernelSection) : img.mapping t ∈ img.linked := by
  refine List.mem_append_left _ (List.mem_cons_of_mem _ (List.mem_map_of_mem ?_))
  cases t <;> decide

theorem directMap_range (h : s.Booted k img) : s.vmars.base img.directMap = k.d.base ∧
    s.vmars.pageCount img.directMap = k.d.pageCount := by
  obtain ⟨h1, h2⟩ := h.tree.base img.directMap (KernelImage.buddyBitmap_ne List.mem_cons_self)
  obtain ⟨h3, h4⟩ := KernelImage.base_directMap img
  exact ⟨h1.trans h3, h2.trans h4⟩

theorem mapping_range (h : s.Booted k img) (t : KernelSection) :
    s.vmars.base (img.mapping t) = img.sectionStart t ∧
      s.vmars.pageCount (img.mapping t) = img.pageCount t := by
  have hne : img.mapping t ≠ img.buddyBitmap :=
    KernelImage.buddyBitmap_ne (List.mem_cons_of_mem _ (List.mem_map_of_mem (by cases t <;> decide)))
  obtain ⟨h1, h2⟩ := h.tree.base _ hne
  obtain ⟨h3, h4⟩ := KernelImage.base_mapping img t
  exact ⟨h1.trans h3, h2.trans h4⟩

theorem root_range (h : s.Booted k img) {r : ℕ} (hr : r ∈ k.roots) :
    s.vmars.base r = img.readyVmars.base r ∧ s.vmars.pageCount r = img.readyVmars.pageCount r := by
  refine h.tree.base r ?_
  rintro rfl
  exact (img.static _ (List.mem_cons_of_mem _ List.mem_cons_self)).2 hr

/-- A page of the direct map is one of its vmar. -/
theorem directPage (h : s.Booted k img) (hn : n ∈ directPages k.d) :
    n ∈ s.vmars.pageNumbers img.directMap := by
  obtain ⟨a, ha, rfl⟩ := hn
  obtain ⟨h1, h2⟩ := h.directMap_range
  refine ⟨a / 4096, ?_, rfl⟩
  rw [pages, pageEnd, vmarFirstPage_eq, h1, h2]
  have hdvd := (by decide : (4096 : ℕ) ∣ 2 ^ 21).trans k.d.base_aligned
  simp only [DirectMap.range, Set.mem_Ico] at ha ⊢
  omega

/-- The pages that were mapped at boot are in special vmars. -/
theorem bootPage (h : s.Booted k img) (hn : n ∈ s.virt.bootPages) (hlt : n < 2 ^ 36) :
    ∃ x ∈ img.linked, n ∈ s.vmars.pageNumbers x := by
  have he := h.entry n hlt ((h.bootPages n hlt).mp hn)
  generalize s.virt.flatMap k.d n = entry at he
  cases he with
  | kernel t i hi =>
    refine ⟨img.mapping t, mapping_mem img t, ?_⟩
    rw [← rangeOf_eq, (h.mapping_range t).1, (h.mapping_range t).2]
    exact mem_rangeOf hi
  | direct e i hmem hm hi =>
    refine ⟨img.directMap, directMap_mem img, h.directPage ?_⟩
    have hle := VirtState.mapped_le hmem hm
    have htop := k.d.top
    have hsize : PAGE_SIZE = 4096 := rfl
    refine ⟨k.d.base + e.base + i * 4096, ?_, ?_⟩
    · simp only [DirectMap.range, Set.mem_Ico]
      rw [hsize] at hi
      omega
    · rw [pageNumber_pageAddr, pageNumber, DirectMap.physToDirect]
      omega
  | bitmap i x hi hx =>
    refine ⟨img.buddyBitmap, buddyBitmap_mem img, ?_⟩
    rw [← rangeOf_eq, h.bitmapCount]
    exact mem_rangeOf hi

theorem ok (h : s.Booted k img) : s.Ok k fun _ => 0 where
  slabs := SlabRun.good_of_initial k.valid k.hasDirectMap k.kernel_le k.alloc_ok
    ⟨h.reach, h.handedOver, h.created, h.live, h.rings⟩
  tree := h.tree.tree
  kernelRegion := by
    obtain ⟨h1, h2⟩ := h.root_range (r := k.kernelRegion) (Or.inl rfl)
    obtain ⟨h3, h4⟩ := KernelImage.base_kernelRegion img
    exact ⟨h1.trans h3, h2.trans h4⟩
  userRegion := by
    obtain ⟨h1, h2⟩ := h.root_range (r := k.userRegion) (Or.inr rfl)
    obtain ⟨h3, h4⟩ := KernelImage.base_userRegion img
    exact ⟨h1.trans h3, h2.trans h4⟩
  static := fun x h1 h2 => by
    rw [← KernelImage.inHeap_iff, Bool.not_eq_true] at h1
    rw [← KernelImage.isRoot_iff, Bool.not_eq_true] at h2
    rw [h.tree.kind]
    simp [KernelImage.initVmars, h1, h2]
  dead := fun x hx _ => h.tree.blank x hx
  refs := by simp [h.live]
  used := by simp [h.live]
  cut := by simp [h.live]
  kinds := by simp [h.live]
  held := fun x hx => absurd rfl hx
  unlocked := fun x => by
    rw [h.tree.pageTableLock]
    rfl
  boot := fun n hn hlt => by
    obtain ⟨x, hx, hnx⟩ := h.bootPage hn hlt
    obtain ⟨hk, hp⟩ := h.special hx
    exact ⟨x, hk, hp, hnx⟩

theorem mapped_eq (h : s.Booted k img) : s.mapped = ∅ := by
  refine Set.eq_empty_iff_forall_notMem.mpr ?_
  rintro n ⟨x, hp, hk, -⟩
  simp [(h.special (mem_linked hp h)).1] at hk

/-- The memory of the allocator is mapped. -/
theorem added_ne_zero (h : s.Booted k img) {a : ℕ} (ha : a ∈ s.virt.boot.clients.added) :
    s.virt.flatMap k.d (pageNumber a) ≠ 0 := by
  obtain ⟨-, husable, -⟩ :=
    VirtState.entries_of_reachable k.valid k.hasDirectMap k.kernel_le h.reach
  obtain ⟨u, hu, ht, hau⟩ := husable h.handedOver a ha
  have hm : Memmap.mapped u = true := by simp [Memmap.mapped, ht]
  have hle := VirtState.mapped_le hu hm
  have hb := k.valid.base_dvd u hu
  have hl := k.valid.length_dvd u hu
  have hbase := k.d.base_aligned
  have htop := k.d.top
  have hne := h.directMapped u hu hm ((a - (k.d.base + u.base)) / 4096) (by
    simp only [Set.mem_Ico] at hau
    rw [Memmap.PAGE_SIZE_eq] at hl ⊢
    omega)
  rwa [pageNumber_pageAddr, show ((k.d.physToDirect u.base / 4096 +
    (a - (k.d.base + u.base)) / 4096) % 2 ^ 36) = pageNumber a by
      rw [Memmap.PAGE_SIZE_eq] at hb
      simp only [Set.mem_Ico] at hau
      rw [pageNumber, DirectMap.physToDirect]
      omega] at hne

/-- A page of the direct map has the entry that `early_map_direct_map` made. -/
theorem direct_entry (h : s.Booted k img) (hn : n ∈ directPages k.d)
    (hne : s.virt.flatMap k.d n ≠ 0) : ∃ phys, 4096 ∣ phys ∧
      s.virt.flatMap k.d n = Boot.mappedEntry phys directFlags := by
  have hlt : n < 2 ^ 36 := by
    obtain ⟨a, -, rfl⟩ := hn
    exact pageNumber_lt a
  have hdm := h.directPage hn
  have huniq : ∀ x ∈ img.linked, n ∈ s.vmars.pageNumbers x → x = img.directMap := by
    intro x hx hnx
    obtain ⟨hk, hp⟩ := h.special hx
    obtain ⟨hk', hp'⟩ := h.special (directMap_mem img)
    exact h.ok.eq_of_page hp hp' (by simp [hk]) (by simp [hk']) hnx hdm
  have he := h.entry n hlt hne
  generalize s.virt.flatMap k.d n = entry at he
  have hdistinct := List.nodup_cons.mp img.distinct
  cases he with
  | kernel t i hi =>
    have hx := huniq (img.mapping t) (mapping_mem img t) (by
      rw [← rangeOf_eq, (h.mapping_range t).1, (h.mapping_range t).2]
      exact mem_rangeOf hi)
    refine absurd ?_ hdistinct.1
    exact hx ▸ List.mem_cons_of_mem _ (List.mem_map_of_mem (by cases t <;> decide))
  | direct e i hmem hm hi =>
    have hb := k.valid.base_dvd e hmem
    rw [Memmap.PAGE_SIZE_eq] at hb
    exact ⟨_, Nat.dvd_add hb (Dvd.intro_left i rfl), rfl⟩
  | bitmap i x hi hx =>
    have hx := huniq img.buddyBitmap (buddyBitmap_mem img) (by
      rw [← rangeOf_eq, h.bitmapCount]
      exact mem_rangeOf hi)
    exact absurd (hx ▸ List.mem_cons_self) hdistinct.1

theorem pagesOk (h : s.Booted k img) : s.PagesOk k := by
  obtain ⟨-, husable, hpresent⟩ :=
    VirtState.entries_of_reachable k.valid k.hasDirectMap k.kernel_le h.reach
  refine ⟨by simp [h.mapped_eq], fun n hn hne => Or.inl ((h.bootPages n hn).mpr hne),
    fun x hp hk => ?_, hpresent, ?_, fun n hn => ?_, fun a ha => ?_, husable⟩
  · simp [(h.special (mem_linked hp h)).1] at hk
  · have hempty : s.empty k = ∅ := by
      simp [empty, h.mapped_eq]
    rw [h.reserved, hempty, Set.ncard_empty]
  · obtain ⟨hk, hp⟩ := h.special (directMap_mem img)
    exact ⟨img.directMap, hk, hp, h.directPage hn⟩
  · have hne := h.added_ne_zero ha
    rw [VirtState.HasSlot]
    cases hs : slot k.d s.virt.phys.mem s.virt.pageTable (pageNumber a) with
    | some p => rfl
    | none => exact absurd (by simp [VirtState.flatMap, leafEntry, hs]) hne

end Booted

end Vmm

namespace VmmRun

variable {r : VmmRun}

theorem good_of_initial (h : r.Initial k) : r.Good k := by
  obtain ⟨img, s, hs, he, hh⟩ := h
  have hb := hs.booted he
  exact ⟨hh ▸ hb.ok, hb.pagesOk⟩

/-- The invariant holds in every state that is reachable from the boot. -/
theorem good_of_reachable (h : Reachable (Initial k) (Step k) r) : r.Good k :=
  h.invariant (fun _ h0 => good_of_initial h0) fun _ _ hg ⟨_, _, hv, he⟩ => good_exec hg hv he

end VmmRun

end Tomato
