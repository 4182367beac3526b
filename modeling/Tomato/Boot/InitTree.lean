import Tomato.Boot.Init
import Tomato.Lib.Loops

/-!
# The vmars of the kernel

`early_virt_init` links the direct map, the sections and the bitmap below the region of the
kernel. `KernelTree` says what holds in between, `linked` being the vmars that are linked.
-/

namespace Tomato

open RbTree Ranges Forest Loops Vmars

variable {k : Kernel} {img : KernelImage k} {v v' : Vmars} {linked : List ℕ} {x page n : ℕ}

namespace KernelImage

variable (img)

/-- The vmars in the data of the kernel that are linked when the kernel boots. -/
def statics : List ℕ := img.directMap :: img.buddyBitmap :: KernelSection.all.map img.mapping

/-- The vmars when their ranges are set and nothing is linked. -/
def readyVmars : Vmars := (img.initVmars.initKernelRegion k).initDirectMap k img

variable {img}

variable (img) in
theorem mem_statics (s : KernelSection) : img.mapping s ∈ img.statics := by
  refine List.mem_cons_of_mem _ (List.mem_cons_of_mem _ (List.mem_map_of_mem ?_))
  cases s <;> decide

theorem mapping_inj {s t : KernelSection} (h : img.mapping s = img.mapping t) : s = t := by
  have hnd := (List.nodup_cons.mp (List.nodup_cons.mp img.distinct).2).2
  have hall : ∀ u : KernelSection, u ∈ KernelSection.all := by intro u; cases u <;> decide
  exact List.inj_on_of_nodup_map hnd (hall s) (hall t) h

theorem sectionOf_mapping (s : KernelSection) : img.sectionOf (img.mapping s) = some s := by
  have hall : s ∈ KernelSection.all := by cases s <;> decide
  cases hf : img.sectionOf (img.mapping s) with
  | none =>
    have := List.find?_eq_none.mp hf s hall
    simp at this
  | some t =>
    have := List.find?_some hf
    simp only [decide_eq_true_eq] at this
    rw [mapping_inj this]

variable (img) in
theorem mapping_ne_directMap (s : KernelSection) : img.mapping s ≠ img.directMap := by
  intro he
  have hnot := (List.nodup_cons.mp img.distinct).1
  refine hnot (List.mem_cons_of_mem _ (List.mem_map.mpr ⟨s, ?_, he⟩))
  cases s <;> decide

theorem buddyBitmap_ne (hx : x ∈ img.directMap :: KernelSection.all.map img.mapping) :
    x ≠ img.buddyBitmap := by
  rintro rfl
  have hd := List.nodup_cons.mp img.distinct
  rcases List.mem_cons.mp hx with he | hx
  · exact hd.1 (he ▸ List.mem_cons_self)
  · exact (List.nodup_cons.mp hd.2).1 hx

theorem static_ne (hx : x ∈ img.statics) : x ≠ k.kernelRegion ∧ x ≠ k.userRegion := by
  have := (img.static x hx).2
  simp only [Kernel.roots, Set.mem_insert_iff, Set.mem_singleton_iff, not_or] at this
  exact this

theorem inHeap_iff : inHeap (k := k) x = true ↔ x ∈ k.d.range := by
  simp [inHeap, DirectMap.range]

theorem isRoot_iff : isRoot (k := k) x = true ↔ x ∈ k.roots := by
  simp [isRoot, Kernel.roots]

variable (img) in
theorem base_kernelRegion : img.readyVmars.base k.kernelRegion = KERNEL_REGION_BASE ∧
    img.readyVmars.pageCount k.kernelRegion = 2 ^ 35 := by
  have h1 := (img.static_ne (x := img.directMap) List.mem_cons_self).1.symm
  have h2 := k.regions_ne
  simp only [readyVmars, Vmars.initDirectMap, Vmars.initKernelRegion, setRange,
    Function.update_of_ne h1, Function.update_of_ne h2, Function.update_self, true_and]
  decide

variable (img) in
theorem base_userRegion : img.readyVmars.base k.userRegion = 2 ^ 32 ∧
    img.readyVmars.pageCount k.userRegion = 2 ^ 35 - 2 ^ 20 - 1 := by
  have h1 := (img.static_ne (x := img.directMap) List.mem_cons_self).2.symm
  simp only [readyVmars, Vmars.initDirectMap, Vmars.initKernelRegion, setRange,
    Function.update_of_ne h1, Function.update_self, true_and]
  decide

variable (img) in
theorem base_directMap : img.readyVmars.base img.directMap = k.d.base ∧
    img.readyVmars.pageCount img.directMap = k.d.pageCount :=
  ⟨Function.update_self _ _ _, (Function.update_self _ _ _).trans k.hasDirectMap.symm⟩

variable (img) in
theorem base_mapping (s : KernelSection) :
    img.readyVmars.base (img.mapping s) = img.sectionStart s ∧
      img.readyVmars.pageCount (img.mapping s) = img.pageCount s := by
  obtain ⟨h1, h2⟩ := static_ne (mem_statics img s)
  have h3 := mapping_ne_directMap img s
  simp only [readyVmars, Vmars.initDirectMap, Vmars.initKernelRegion, setRange,
    Function.update_of_ne h1, Function.update_of_ne h2, Function.update_of_ne h3, initVmars,
    sectionOf_mapping, Option.elim_some, and_self]

/-- The objects of the heap are zero. -/
theorem blank_ready (hx : x ∈ k.d.range) : img.readyVmars.Blank x := by
  have hroot := Vmm.Ok.notMem_roots hx
  have hne : ∀ y ∈ img.statics, y ≠ x := by
    rintro y hy rfl
    exact (img.static y hy).1 hx
  have hd : x ≠ img.directMap := (hne _ List.mem_cons_self).symm
  simp only [Kernel.roots, Set.mem_insert_iff, Set.mem_singleton_iff, not_or] at hroot
  have hheap : inHeap (k := k) x = true := inHeap_iff.mpr hx
  have hsec : img.sectionOf x = none := by
    refine List.find?_eq_none.mpr fun s _ => ?_
    simpa using hne _ (mem_statics img s)
  constructor <;> simp [readyVmars, Vmars.initDirectMap, Vmars.initKernelRegion, setRange,
    Function.update_of_ne hroot.1, Function.update_of_ne hroot.2, Function.update_of_ne hd,
    initVmars, hheap, hsec]

end KernelImage

/-- The vmars `linked` of the kernel are linked, and the heap has no objects. -/
structure KernelTree (img : KernelImage k) (linked : List ℕ) (v : Vmars) : Prop where
  tree : VmarsOk k.roots v
  parent : ∀ x, v.parent x = if x ∈ linked then some k.kernelRegion else none
  refCount : v.refCount = img.initVmars.refCount
  kind : v.kind = img.initVmars.kind
  unmapped : v.unmapped = img.initVmars.unmapped
  locked : v.locked = img.initVmars.locked
  pageTableLock : v.pageTableLock = img.initVmars.pageTableLock
  base : ∀ x, x ≠ img.buddyBitmap → v.base x = img.readyVmars.base x ∧
    v.pageCount x = img.readyVmars.pageCount x
  blank : ∀ x ∈ k.d.range, v.Blank x

namespace KernelTree

theorem kind_static (h : KernelTree img linked v) (hx : x ∈ img.statics) :
    v.kind x = .special := by
  obtain ⟨h1, h2⟩ := img.static x hx
  rw [← KernelImage.inHeap_iff, Bool.not_eq_true] at h1
  rw [← KernelImage.isRoot_iff, Bool.not_eq_true] at h2
  rw [h.kind]
  simp [KernelImage.initVmars, h1, h2]

theorem parent_iff (h : KernelTree img linked v) (x : ℕ) :
    v.parent x = some k.kernelRegion ↔ x ∈ linked := by
  rw [h.parent x]
  by_cases hx : x ∈ linked <;> simp [hx]

/-- The pages of a vmar whose range is known from the start. -/
theorem pages_eq (h : KernelTree img linked v) (hx : x ≠ img.buddyBitmap) :
    v.vmarFirstPage x = img.readyVmars.vmarFirstPage x ∧
      v.pageEnd x = img.readyVmars.pageEnd x := by
  obtain ⟨h1, h2⟩ := h.base x hx
  rw [pageEnd, pageEnd, vmarFirstPage, vmarFirstPage, h1, h2]
  exact ⟨rfl, rfl⟩

theorem kernelRegion_pages (h : KernelTree img linked v) :
    v.vmarFirstPage k.kernelRegion = 0xFFFF800000000 ∧ v.pageEnd k.kernelRegion = 2 ^ 52 := by
  have hne : k.kernelRegion ≠ img.buddyBitmap :=
    (img.static_ne (List.mem_cons_of_mem _ List.mem_cons_self)).1.symm
  obtain ⟨h1, h2⟩ := h.pages_eq hne
  obtain ⟨h3, h4⟩ := KernelImage.base_kernelRegion img
  rw [h1, h2, pageEnd, vmarFirstPage_eq, h3, h4]
  decide

/-- Before the first call of `vmar_link`. -/
theorem start (img : KernelImage k) : KernelTree img [] img.readyVmars := by
  have hparent : img.readyVmars.parent = fun _ => none := rfl
  have hin : ∀ x, img.readyVmars.InTree k.roots x ↔ x ∈ k.roots := fun x => by
    simp [InTree, hparent]
  refine ⟨⟨fun r => ⟨[], childrenOk_nil rfl rfl, fun x => by simp [hparent]⟩, by simp [hparent],
    fun x hx => ?_, fun r hr => ⟨rfl, ?_⟩, fun x hx => ?_, ⟨fun _ => 0, ?_⟩, by simp [hparent]⟩,
    by simp [hparent], rfl, rfl, rfl, rfl, rfl, fun _ _ => ⟨rfl, rfl⟩,
    fun x hx => KernelImage.blank_ready hx⟩
  · rcases (hin x).mp hx with rfl | rfl
    · rw [pageEnd, vmarFirstPage_eq, (KernelImage.base_kernelRegion img).1,
        (KernelImage.base_kernelRegion img).2]
      decide
    · rw [pageEnd, vmarFirstPage_eq, (KernelImage.base_userRegion img).1, (KernelImage.base_userRegion img).2]
      decide
  · change img.initVmars.kind r = .region
    simp [KernelImage.initVmars, KernelImage.isRoot_iff.mpr hr]
  · exact absurd hx (by simp [KernelImage.readyVmars, Vmars.initDirectMap, initKernelRegion,
      setRange, KernelImage.initVmars])
  · intro x p hp
    simp [hparent] at hp

/-- One more vmar is linked. -/
theorem link (h : KernelTree img linked v) (hx : x ∈ img.statics)
    (hl : Linked v v' k.kernelRegion x page n) (htree : VmarsOk k.roots v')
    (hb : x ≠ img.buddyBitmap → page * 4096 = v.base x ∧ n = v.pageCount x) :
    KernelTree img (linked ++ [x]) v' := by
  have hheap := (img.static x hx).1
  refine ⟨htree, fun y => ?_, hl.refCount.trans h.refCount, hl.kind.trans h.kind,
    hl.unmapped.trans h.unmapped, hl.locked.trans h.locked,
    hl.pageTableLock.trans h.pageTableLock, fun y hy => ?_, fun y hy => ?_⟩
  · rw [hl.parent]
    by_cases hyx : y = x
    · simp [hyx]
    · rw [Function.update_of_ne hyx, h.parent y]
      simp [hyx]
  · rw [hl.base, hl.pageCount]
    by_cases hyx : y = x
    · subst hyx
      rw [Function.update_self, Function.update_self, (hb hy).1, (hb hy).2]
      exact h.base y hy
    · rw [Function.update_of_ne hyx, Function.update_of_ne hyx]
      exact h.base y hy
  · have hyx : y ≠ x := by
      rintro rfl
      exact hheap hy
    have hyr : y ≠ k.kernelRegion := by
      rintro rfl
      exact k.kernelRegion_outside hy
    have hbl := h.blank y hy
    obtain ⟨h1, h2, h3, h4⟩ := hl.node y hyx (by simp [hbl.parent])
    obtain ⟨h5, h6⟩ := hl.children y hyr
    exact
      { refCount := by rw [hl.refCount, hbl.refCount]
        base := by rw [hl.base, Function.update_of_ne hyx, hbl.base]
        pageCount := by rw [hl.pageCount, Function.update_of_ne hyx, hbl.pageCount]
        parent := by rw [hl.parent, Function.update_of_ne hyx, hbl.parent]
        gap := h1.trans hbl.gap
        maxGap := h2.trans hbl.maxGap
        kind := by rw [hl.kind, hbl.kind]
        unmapped := by rw [hl.unmapped, hbl.unmapped]
        locked := by rw [hl.locked, hbl.locked]
        prev := h3.trans hbl.prev
        next := h4.trans hbl.next
        children := h5.trans hbl.children
        leftmost := h6.trans hbl.leftmost
        pageTableLock := by rw [hl.pageTableLock, hbl.pageTableLock] }

theorem notMem_tree (h : KernelTree img linked v) (hx : x ∈ img.statics) (hnew : x ∉ linked) :
    ¬ v.InTree k.roots x := by
  rintro (hr | hp)
  · exact (img.static x hx).2 hr
  · exact hp (by rw [h.parent x, if_neg hnew])

theorem unmapped_eq (h : KernelTree img linked v) (x : ℕ) : v.unmapped x = false := by
  rw [h.unmapped]
  rfl

theorem kernelRegion_mem (v : Vmars) : v.InTree k.roots k.kernelRegion := Or.inl (Or.inl rfl)

/-- `vmar_link`. -/
theorem vmarLink (h : KernelTree img linked v) (hx : x ∈ img.statics) (hnew : x ∉ linked)
    (hne : x ≠ img.buddyBitmap) (hn : 0 < v.pageCount x) (hd : 4096 ∣ v.base x)
    (he : v.vmarLink k.kernelRegion x = some v') : KernelTree img (linked ++ [x]) v' := by
  obtain ⟨hl, htree⟩ := h.tree.vmarLink (kernelRegion_mem v) (h.notMem_tree hx hnew)
    (h.unmapped_eq x) hn hd he
  refine h.link hx hl htree fun _ => ⟨?_, rfl⟩
  rw [vmarFirstPage_eq]
  exact Nat.div_mul_cancel hd

/-- The ranges of the vmars that `vmar_link` is called with. -/
theorem ready_range (hdm : 0 < k.d.pageCount)
    (hx : x ∈ img.directMap :: KernelSection.all.map img.mapping) :
    0 < img.readyVmars.pageCount x ∧ 4096 ∣ img.readyVmars.base x := by
  rcases List.mem_cons.mp hx with rfl | hx
  · obtain ⟨h1, h2⟩ := KernelImage.base_directMap img
    rw [h1, h2]
    exact ⟨hdm, (by decide : (4096 : ℕ) ∣ 2 ^ 21).trans k.d.base_aligned⟩
  · obtain ⟨s, -, rfl⟩ := List.mem_map.mp hx
    obtain ⟨h1, h2⟩ := KernelImage.base_mapping img s
    rw [h1, h2]
    exact ⟨img.pageCount_pos s, Nat.dvd_add img.virtBase_dvd (Nat.dvd_mul_left _ _)⟩

/-- The calls of `vmar_link`. -/
theorem linkKernel (hdm : 0 < k.d.pageCount)
    (he : img.readyVmars.linkKernel k img = some v) :
    KernelTree img (img.directMap :: KernelSection.all.map img.mapping) v := by
  have hnd : (img.directMap :: KernelSection.all.map img.mapping).Nodup :=
    List.Nodup.sublist (List.Sublist.cons_cons _ (List.sublist_cons_self _ _)) img.distinct
  refine foldlM_invariant (KernelTree.start img) (fun x rest done heq v v' h e => ?_) he
  have hx : x ∈ img.directMap :: KernelSection.all.map img.mapping :=
    heq ▸ List.mem_append_right _ List.mem_cons_self
  have hnew : x ∉ done := fun hd =>
    List.disjoint_of_nodup_append (heq ▸ hnd) hd List.mem_cons_self
  have hne := KernelImage.buddyBitmap_ne hx
  obtain ⟨h1, h2⟩ := h.base x hne
  obtain ⟨hn, hd⟩ := ready_range hdm hx
  refine h.vmarLink ?_ hnew hne (h2 ▸ hn) (h1 ▸ hd) e
  rcases List.mem_cons.mp hx with rfl | hx
  · exact List.mem_cons_self
  · exact List.mem_cons_of_mem _ (List.mem_cons_of_mem _ hx)

/-- The bitmap is linked at the lowest place where it fits. -/
theorem linkBitmap
    (h : KernelTree img (img.directMap :: KernelSection.all.map img.mapping) v)
    (he : v.vmarAllocateStatic k.kernelRegion img.buddyBitmap VMAR_ANY_OFFSET n =
      some (.ok (), v')) :
    ∃ xs page, v.ChildrenOk k.kernelRegion xs ∧
      (∀ x, x ∈ xs ↔ v.parent x = some k.kernelRegion) ∧
      v.Wanted k.kernelRegion VMAR_ANY_OFFSET n xs page ∧ 0 < n ∧
      KernelTree img (img.directMap :: KernelSection.all.map img.mapping ++ [img.buddyBitmap]) v' ∧
      v'.base img.buddyBitmap = page * 4096 ∧ v'.pageCount img.buddyBitmap = n := by
  have hx : img.buddyBitmap ∈ img.statics := List.mem_cons_of_mem _ List.mem_cons_self
  have hnew : img.buddyBitmap ∉ img.directMap :: KernelSection.all.map img.mapping := fun hc =>
    KernelImage.buddyBitmap_ne hc rfl
  obtain ⟨xs, hok, hxs⟩ := h.tree.children k.kernelRegion
  rcases h.tree.vmarAllocateStatic VMAR_ANY_OFFSET n (Or.inl (kernelRegion_mem v))
    (h.notMem_tree hx hnew) (KernelImage.static_ne hx).1 (h.unmapped_eq _) hok hxs with
    ⟨e, b, m, e1, -⟩ | ⟨page, v1, e1, -, hn, -, hw, hl, htree⟩
  · simp [he] at e1
  · simp only [he, Option.some.injEq, Prod.mk.injEq, true_and] at e1
    subst e1
    refine ⟨xs, page, hok, hxs, hw, hn, h.link hx hl htree fun hc => absurd rfl hc, ?_, ?_⟩
    · rw [hl.base, Function.update_self]
    · rw [hl.pageCount, Function.update_self]

end KernelTree

end Tomato
