import Tomato.Mem.Alloc.Steps

/-!
# Making a slab

A new slab is a page that none of the lists has an entry in. All its objects are put on its
free list, and its counter is zero because the page is.
-/

namespace Tomato

open Blocks Links

variable {d : DirectMap} {entries : Memmap} {a : MemAlloc} {m : MemAllocMeta} {st : Slabs}
  {vs vs' : VirtState} {live : List ℕ} {lists : ℕ → List ℕ} {l : Links ℕ} {slab x : ℕ}

namespace VirtState

/-- A page is allocated for a new client. -/
theorem physAlloc_page (h : vs.Good d entries) (hl : vs.handedOver = true) :
    vs.physAlloc d PAGE_SIZE = some (none, vs) ∨
      ∃ x vs', vs.physAlloc d PAGE_SIZE = some (some x, vs') ∧ vs'.Good d entries ∧
        vs'.handedOver = true ∧ 4096 ∣ x ∧ pageCells x ⊆ d.range ∧
        block x 6 ∉ vs.boot.clients.live ∧
        vs'.boot.clients.live = block x 6 :: vs.boot.clients.live ∧
        ∀ a ∈ pageCells x, vs'.phys.mem a = 0 := by
  obtain ⟨hnd, fl, live, hok⟩ := h.late hl
  rcases hok.ok.physAlloc PAGE_SIZE with e | ⟨level, x, s, fl', pages, hlev, e, ha, ho, -, -⟩
  · exact Or.inl (by simp only [physAlloc, phys, e, Option.map_some, Clients.handOut])
  obtain rfl : 6 = level := Option.some.inj (Phys.getLevelBySize_pageSize.symm.trans hlev)
  obtain ⟨hok', -⟩ := Clients.VirtOk.handOut hnd hok hlev ha ho
  refine Or.inr ⟨x, _, by simp only [physAlloc, phys, e, Option.map_some], good_late hl hok',
    hl, ha.inv.tiling.aligned (block x 6) (Or.inl (Or.inr (Or.inr rfl))),
    ha.cells.trans (hok.ok.inv.freeCells_subset.trans hok.ok.inv.range),
    fun hc => ha.fresh (hok.others_live hc), ?_, ha.zero⟩
  simp only [Clients.handOut, hlev, Option.getD_some]

/-- `virt_make_global` touches no block of a client. -/
theorem makeGlobal_spec (h : vs.Good d entries) (hl : vs.handedOver = true)
    (he : vs.exec d entries (.makeGlobal slab 1) = some vs') :
    vs'.Good d entries ∧ vs'.handedOver = true ∧
      vs'.boot.clients.live = vs.boot.clients.live ∧
      ∀ b ∈ vs.boot.clients.live, ∀ a ∈ b.cells, vs'.phys.mem a = vs.phys.mem a := by
  have hg := (good_exec h (show vs.Valid d (.makeGlobal slab 1) from hl) he).1
  obtain ⟨-, fl, live, hok⟩ := h.late hl
  obtain ⟨s, e, rfl⟩ := Option.map_eq_some_iff.mp he
  obtain ⟨fl', live', ht, -⟩ := hok.virtMakeGlobal e
  exact ⟨hg, hl, rfl, ht.content⟩

end VirtState

namespace SlabInv

/-- The entries of the lists are outside of the direct map or in a slab. -/
theorem entry_cases (h : SlabInv d a m st live lists) (ha : a.Ok d) (hm : m.Ok) {head : ℕ}
    (hh : head ∈ listHeads a st.created) (hx : x ∈ head :: lists head) :
    x ∉ d.range ∨ ∃ slab ∈ st.created, x ∈ pageCells slab := by
  have hpage : ∀ slab : ℕ, slab ∈ pageCells slab := fun slab => by simp [pageCells]
  rcases hh with hh | ⟨slab, hs, rfl⟩
  · rcases List.mem_cons.mp hx with rfl | hx
    · exact Or.inl (ha.outside _ hh)
    · exact Or.inr ⟨x, h.mem_created hh hx, hpage x⟩
  · refine Or.inr ⟨slab, hs, ?_⟩
    rcases List.mem_cons.mp hx with rfl | hx
    · simp only [slabFree, pageCells, Set.mem_Ico]
      omega
    · have hb := hm.bounds ((h.free slab hs x).mp hx).1
      simp only [pageCells, Set.mem_Ico]
      omega

/-- The lists have no entry in a page that is not one of a slab. -/
theorem page_notMem (h : SlabInv d a m st live lists) (ha : a.Ok d) (hm : m.Ok)
    (hdvd : 4096 ∣ slab) (hr : pageCells slab ⊆ d.range) (hnew : slab ∉ st.created)
    (hx : x ∈ pageCells slab) : ∀ h' ∈ listHeads a st.created, x ∉ h' :: lists h' := by
  intro h' hh' hc
  rcases h.entry_cases ha hm hh' hc with hout | ⟨slab', hs', hx'⟩
  · exact hout (hr hx)
  · have hne : slab ≠ slab' := fun he => hnew (he ▸ hs')
    exact Set.disjoint_left.mp (pageCells_disjoint hdvd (h.page slab' hs').1 hne) hx hx'

end SlabInv

theorem listHeads_cons (a : MemAlloc) (slab : ℕ) (created : List ℕ) :
    listHeads a (slab :: created) = insert (slabFree slab) (listHeads a created) := by
  ext h
  simp only [listHeads, Set.mem_ofPred_eq, Set.mem_insert_iff, List.exists_mem_cons_iff]
  tauto

theorem objects_succ_mem {n : ℕ} (hn : n < m.objectsPerSlab) :
    slab + alignUp SLAB_SIZE m.objectAlign + m.objectStride * n ∈ objects m slab :=
  List.mem_map.mpr ⟨n, List.mem_range.mpr hn, rfl⟩

/-- The loop of `slab_create` puts the objects on the free list one by one. -/
theorem linkObjects_spec {H : Set ℕ} {n : ℕ} (hm : m.Ok) (hdvd : 4096 ∣ slab)
    (hR : Rings l H lists) (hh : slabFree slab ∈ H) (hempty : lists (slabFree slab) = [])
    (hout : ∀ x ∈ objects m slab, ∀ h' ∈ H, x ∉ h' :: lists h') (hn : n ≤ m.objectsPerSlab) :
    ∃ l', linkObjects (slabFree slab) (slab + alignUp SLAB_SIZE m.objectAlign) m.objectStride n l =
        some l' ∧
      Rings l' H (Function.update lists (slabFree slab) ((objects m slab).take n).reverse) := by
  induction n with
  | zero =>
      refine ⟨l, rfl, ?_⟩
      rw [List.take_zero, List.reverse_nil, ← hempty, Function.update_eq_self]
      exact hR
  | succ n ih =>
      obtain ⟨l1, e1, h1⟩ := ih (by omega)
      obtain ⟨x, hx⟩ : ∃ x, x = slab + alignUp SLAB_SIZE m.objectAlign + m.objectStride * n :=
        ⟨_, rfl⟩
      have hlt : n < (objects m slab).length := by rw [length_objects]; omega
      have hget : (objects m slab)[n] = x := by simp [objects, hx]
      have hxo : x ∈ objects m slab := hget ▸ List.getElem_mem hlt
      have hnot : x ∉ (objects m slab).take n := by
        intro hc
        obtain ⟨i, hi, he⟩ := List.mem_take_iff_getElem.mp hc
        have := (List.Nodup.getElem_inj_iff (hm.nodup slab)).mp (he.trans hget.symm)
        omega
      have hnew : ∀ h' ∈ H,
          x ∉ h' :: Function.update lists (slabFree slab) ((objects m slab).take n).reverse h' := by
        intro h' hh'
        by_cases he : h' = slabFree slab
        · subst he
          rw [Function.update_self, List.mem_cons, List.mem_reverse, not_or]
          exact ⟨(hm.not_header hdvd hdvd hxo).2, hnot⟩
        · rw [Function.update_of_ne he]
          exact hout x hxo h' hh'
      obtain ⟨l2, e2, h2⟩ := h1.listAdd hh hnew
      refine ⟨l2, by rw [linkObjects, e1, Option.bind_some, ← hx, e2], ?_⟩
      rw [Function.update_self, Function.update_idem] at h2
      rwa [List.take_succ_eq_append_getElem hlt, hget, List.reverse_append, List.reverse_singleton,
        List.singleton_append]

/-- The page table is fine and the pages of the slabs are those of the allocator. -/
structure SlabPages (d : DirectMap) (entries : Memmap) (st : Slabs) : Prop where
  good : st.virt.Good d entries
  handedOver : st.virt.handedOver = true
  held : ∀ slab ∈ st.created, block slab 6 ∈ st.virt.boot.clients.live

/-- A page that none of the lists has an entry in. -/
structure Fresh (d : DirectMap) (st : Slabs) (slab : ℕ) : Prop where
  dvd : 4096 ∣ slab
  range : pageCells slab ⊆ d.range
  new : slab ∉ st.created

/-- The lists with a new slab, which is the only one on the partial list. -/
def createdLists (a : MemAlloc) (m : MemAllocMeta) (lists : ℕ → List ℕ) (slab : ℕ) :
    ℕ → List ℕ :=
  Function.update (Function.update lists (slabFree slab) (objects m slab).reverse)
    a.partialList [slab]

theorem mem_pageCells {k : ℕ} (hk : k < 4096) : slab + k ∈ pageCells slab := by
  simp only [pageCells, Set.mem_Ico]
  omega

namespace SlabInv

variable (h : SlabInv d a m st live lists) (ha : a.Ok d) (hm : m.Ok) (hf : Fresh d st slab)

include h ha hm hf

theorem slabFree_notMem : ∀ h' ∈ listHeads a st.created, slabFree slab ∉ h' :: lists h' :=
  h.page_notMem ha hm hf.dvd hf.range hf.new (mem_pageCells (by omega))

theorem slabFree_ne_head {h' : ℕ} (hh : h' ∈ listHeads a st.created) : h' ≠ slabFree slab := by
  rintro rfl
  exact h.slabFree_notMem ha hm hf _ hh List.mem_cons_self

/-- The lists that were there before. -/
theorem createdLists_other {h' : ℕ} (hh : h' ∈ listHeads a st.created)
    (hne : h' ≠ a.partialList) : createdLists a m lists slab h' = lists h' := by
  rw [createdLists, Function.update_of_ne hne,
    Function.update_of_ne (h.slabFree_ne_head ha hm hf hh)]

/-- The objects of the new slab are linked, and then the slab. -/
theorem createLinks (hnone : lists a.partialList = []) :
    ∃ l1 l2, linkObjects (slabFree slab) (slab + alignUp SLAB_SIZE m.objectAlign) m.objectStride
        m.objectsPerSlab (st.links.initList (slabFree slab)) = some l1 ∧
      l1.listAdd a.partialList slab = some l2 ∧
      Rings l2 (listHeads a (slab :: st.created)) (createdLists a m lists slab) := by
  have hpage : ∀ y ∈ pageCells slab, ∀ h' ∈ listHeads a st.created, y ∉ h' :: lists h' :=
    fun y hy => h.page_notMem ha hm hf.dvd hf.range hf.new hy
  have hup : ∀ xs, ∀ h' ∈ listHeads a st.created,
      Function.update lists (slabFree slab) xs h' = lists h' := fun xs h' hh' =>
    Function.update_of_ne (h.slabFree_ne_head ha hm hf hh') _ _
  obtain ⟨l1, e1, h1⟩ := linkObjects_spec hm hf.dvd
    (h.rings.insert (h.slabFree_notMem ha hm hf)) (Set.mem_insert _ _)
    (Function.update_self _ _ _) (fun y hy h' hh' => by
      have hne := hm.not_header hf.dvd hf.dvd hy
      have hb := hm.bounds hy
      rcases hh' with rfl | hh'
      · simpa using hne.2
      · rw [hup _ h' hh']
        refine hpage y ?_ h' hh'
        simp only [pageCells, Set.mem_Ico]
        omega) le_rfl
  rw [Function.update_idem, List.take_of_length_le length_objects.le, ← listHeads_cons] at h1
  have hslab : ∀ h' ∈ listHeads a (slab :: st.created),
      slab ∉ h' :: Function.update lists (slabFree slab) (objects m slab).reverse h' := by
    intro h' hh'
    rw [listHeads_cons] at hh'
    rcases hh' with rfl | hh'
    · rw [Function.update_self, List.mem_cons, List.mem_reverse, not_or]
      exact ⟨slab_ne_slabFree hf.dvd hf.dvd, fun hc => (hm.not_header hf.dvd hf.dvd hc).1 rfl⟩
    · rw [hup _ h' hh']
      exact hpage slab (mem_pageCells (k := 0) (by omega)) h' hh'
  obtain ⟨l2, e2, h2⟩ := h1.listAdd (partial_mem_listHeads a _) hslab
  rw [hup _ _ (partial_mem_listHeads a _), hnone] at h2
  exact ⟨l1, l2, e1, e2, h2⟩

/-- The slab is one more slab without live objects. -/
theorem created {l : Links ℕ} {vs : VirtState} (hnone : lists a.partialList = [])
    (hR : Rings l (listHeads a (slab :: st.created)) (createdLists a m lists slab)) :
    SlabInv d a m
      { links := l
        alloc := Function.update st.alloc slab a.ptr
        inUse := Function.update st.inUse slab 0
        virt := vs
        created := slab :: st.created } live (createdLists a m lists slab) := by
  have hlive : ∀ y ∈ objects m slab, y ∉ live := by
    intro y hy hc
    obtain ⟨s, hs, hys⟩ := h.live_mem y hc
    exact hf.new (hm.eq_of_mem hf.dvd (h.page s hs).1 hy hys ▸ hs)
  have hne : ∀ s ∈ st.created, s ≠ slab := by
    rintro s hs rfl
    exact hf.new hs
  have hp2 : createdLists a m lists slab a.partialList = [slab] := Function.update_self _ _ _
  refine ⟨hR, List.nodup_cons.mpr ⟨hf.new, h.nodup⟩, ?_, fun s hs => ?_, fun s hs => ?_,
    fun s hs y => ?_, fun s hs => ?_, h.live_nodup, fun y hy => ?_⟩
  · rw [hp2, h.createdLists_other ha hm hf (full_mem_listHeads a _) ha.full_ne,
      h.createdLists_other ha hm hf (empty_mem_listHeads a _) ha.empty_ne]
    have hperm := h.perm
    rw [hnone, List.nil_append] at hperm
    exact hperm.cons slab
  · rcases List.mem_cons.mp hs with rfl | hs
    · exact ⟨hf.dvd, hf.range⟩
    · exact h.page s hs
  · change Function.update st.alloc slab a.ptr s = a.ptr
    rcases List.mem_cons.mp hs with rfl | hs
    · exact Function.update_self _ _ _
    · rw [Function.update_of_ne (hne s hs), h.owner s hs]
  · rcases List.mem_cons.mp hs with rfl | hs
    · have hp := (h.slabFree_ne_head ha hm hf (partial_mem_listHeads a _)).symm
      rw [createdLists, Function.update_of_ne hp, Function.update_self, List.mem_reverse]
      exact ⟨fun hy => ⟨hy, hlive y hy⟩, fun hy => hy.1⟩
    · have hp : slabFree s ≠ a.partialList := fun hc => h.slabFree_ne ha hs (by simp [hc])
      rw [h.createdLists_other ha hm hf (slabFree_mem_listHeads hs) hp]
      exact h.free s hs y
  · change Function.update st.inUse slab 0 s = _
    rcases List.mem_cons.mp hs with rfl | hs
    · rw [Function.update_self]
      exact (List.countP_eq_zero.mpr fun y hy => by simpa using hlive y hy).symm
    · rw [Function.update_of_ne (hne s hs), h.inUse s hs]
  · obtain ⟨s, hs, hys⟩ := h.live_mem y hy
    exact ⟨s, List.mem_cons_of_mem _ hs, hys⟩

omit hf in
/-- A new slab becomes the first of the partial list. -/
theorem slabCreate (hp : SlabPages d entries st) (hnone : lists a.partialList = []) :
    (st.slabCreate d entries a m = some (none, st) ∧
      st.virt.physAlloc d PAGE_SIZE = some (none, st.virt)) ∨
    (st.slabCreate d entries a m = none ∧ ∃ x vs, st.virt.physAlloc d PAGE_SIZE =
      some (some x, vs) ∧ vs.exec d entries (.makeGlobal x 1) = none) ∨
    ∃ slab st1 l2, st.slabCreate d entries a m = some (some slab, st1) ∧
      st1.links.listAdd a.partialList slab = some l2 ∧ Fresh d st slab ∧
      SlabInv d a m { st1 with links := l2 } live (createdLists a m lists slab) ∧
      SlabPages d entries st1 ∧ st1.inUse = Function.update st.inUse slab 0 := by
  rcases VirtState.physAlloc_page hp.good hp.handedOver with e | ⟨slab, vs, e, hg, hl, hdvd, hr,
    hnew, hlive, hzero⟩
  · exact Or.inl ⟨by simp [Slabs.slabCreate, e], e⟩
  cases he : vs.exec d entries (.makeGlobal slab 1) with
  | none => exact Or.inr (Or.inl ⟨by simp [Slabs.slabCreate, e, he], slab, vs, e, he⟩)
  | some vs' =>
    obtain ⟨hg', hl', hlive', hmem⟩ := VirtState.makeGlobal_spec hg hl he
    have hf : Fresh d st slab := ⟨hdvd, hr, fun hc => hnew (hp.held slab hc)⟩
    have huse : vs'.phys.mem (slabInUse slab) % 2 ^ 16 = 0 := by
      have hb : block slab 6 ∈ vs.boot.clients.live := hlive ▸ List.mem_cons_self
      have hc : slabInUse slab ∈ pageCells slab := mem_pageCells (k := 40) (by omega)
      rw [hmem _ hb _ (show slabInUse slab ∈ (block slab 6).cells from hc), hzero _ hc,
        Nat.zero_mod]
    obtain ⟨l1, l2, e1, e2, h2⟩ := h.createLinks ha hm hf hnone
    refine Or.inr (Or.inr ⟨slab,
      { links := l1
        alloc := Function.update st.alloc slab a.ptr
        inUse := Function.update st.inUse slab 0
        virt := vs'
        created := slab :: st.created }, l2, ?_, e2, hf, h.created ha hm hf hnone h2,
      ⟨hg', hl', fun s hs => ?_⟩, rfl⟩)
    · simp only [Slabs.slabCreate, e, he, e1, huse, Option.bind_eq_bind, Option.bind_some]
    · change block s 6 ∈ vs'.boot.clients.live
      rw [hlive', hlive]
      rcases List.mem_cons.mp hs with rfl | hs
      · exact List.mem_cons_self
      · exact List.mem_cons_of_mem _ (hp.held s hs)

end SlabInv

end Tomato
