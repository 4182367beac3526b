import Tomato.Mem.Alloc.Layout

/-!
# The invariant of a slab allocator

`SlabInv` says which entries the lists of an allocator have, `live` being the objects that
are handed out: the lists of slabs have all the slabs, and the free list of a slab has the
objects of the slab that are not live. The three lists are kept apart by `SlabBounds`.
-/

namespace Tomato

open Links

variable {d : DirectMap} {a : MemAlloc} {m : MemAllocMeta} {st : Slabs} {live : List ℕ}
  {lists : ℕ → List ℕ} {l : Links ℕ} {slab x : ℕ}

/-- The heads of the lists are three different words outside of the direct map. -/
structure MemAlloc.Ok (a : MemAlloc) (d : DirectMap) : Prop where
  full_ne : a.fullList ≠ a.partialList
  empty_ne : a.emptyList ≠ a.partialList
  empty_ne_full : a.emptyList ≠ a.fullList
  outside : ∀ h ∈ [a.partialList, a.fullList, a.emptyList], h ∉ d.range

/-- The heads of all the lists of an allocator with the slabs `created`. -/
def listHeads (a : MemAlloc) (created : List ℕ) : Set ℕ :=
  {h | h ∈ [a.partialList, a.fullList, a.emptyList] ∨ ∃ slab ∈ created, h = slabFree slab}

structure SlabInv (d : DirectMap) (a : MemAlloc) (m : MemAllocMeta) (st : Slabs) (live : List ℕ)
    (lists : ℕ → List ℕ) : Prop where
  rings : Rings st.links (listHeads a st.created) lists
  nodup : st.created.Nodup
  perm : (lists a.partialList ++ lists a.fullList ++ lists a.emptyList).Perm st.created
  page : ∀ slab ∈ st.created, 4096 ∣ slab ∧ pageCells slab ⊆ d.range
  owner : ∀ slab ∈ st.created, st.alloc slab = a.ptr
  free : ∀ slab ∈ st.created, ∀ x, x ∈ lists (slabFree slab) ↔ x ∈ objects m slab ∧ x ∉ live
  inUse : ∀ slab ∈ st.created, st.inUse slab = (objects m slab).countP (· ∈ live)
  live_nodup : live.Nodup
  live_mem : ∀ x ∈ live, ∃ slab ∈ st.created, x ∈ objects m slab

/-- The counters of the slabs on each list. -/
structure SlabBounds (a : MemAlloc) (m : MemAllocMeta) (st : Slabs) (lists : ℕ → List ℕ) :
    Prop where
  partialList : ∀ slab ∈ lists a.partialList,
    0 < st.inUse slab ∧ st.inUse slab < m.objectsPerSlab
  fullList : ∀ slab ∈ lists a.fullList, st.inUse slab = m.objectsPerSlab
  emptyList : ∀ slab ∈ lists a.emptyList, st.inUse slab = 0

theorem partial_mem_listHeads (a : MemAlloc) (created : List ℕ) :
    a.partialList ∈ listHeads a created := Or.inl (by simp)

theorem full_mem_listHeads (a : MemAlloc) (created : List ℕ) :
    a.fullList ∈ listHeads a created := Or.inl (by simp)

theorem empty_mem_listHeads (a : MemAlloc) (created : List ℕ) :
    a.emptyList ∈ listHeads a created := Or.inl (by simp)

theorem slabFree_mem_listHeads {created : List ℕ} (hs : slab ∈ created) :
    slabFree slab ∈ listHeads a created := Or.inr ⟨slab, hs, rfl⟩

/-- One more live object counts where it is an object. -/
theorem countP_cons_live {xs : List ℕ} (hnd : xs.Nodup) (hx : x ∉ live) :
    xs.countP (· ∈ x :: live) = xs.countP (· ∈ live) + if x ∈ xs then 1 else 0 := by
  induction xs with
  | nil => rfl
  | cons y ys ih =>
      obtain ⟨hy, hys⟩ := List.nodup_cons.mp hnd
      have ih := ih hys
      simp only [List.countP_cons, List.mem_cons] at ih ⊢
      rw [ih]
      by_cases he : y = x
      · subst he
        simp [hy, hx]
      · simp [he, Ne.symm he]
        omega

theorem countP_erase_live {xs : List ℕ} (hnd : xs.Nodup) (hlive : live.Nodup) (hx : x ∈ live) :
    xs.countP (· ∈ live) = xs.countP (· ∈ live.erase x) + if x ∈ xs then 1 else 0 := by
  have hperm := List.perm_cons_erase hx
  rw [← countP_cons_live hnd (fun hc => (hlive.mem_erase_iff.mp hc).1 rfl)]
  exact List.countP_congr fun y _ => by simp only [decide_eq_true_eq, hperm.mem_iff]

namespace SlabInv

theorem slabFree_ne (h : SlabInv d a m st live lists) (ha : a.Ok d) (hs : slab ∈ st.created) :
    slabFree slab ∉ [a.partialList, a.fullList, a.emptyList] := by
  intro hc
  refine ha.outside _ hc ((h.page slab hs).2 ?_)
  simp only [slabFree, pageCells, Set.mem_Ico]
  omega

theorem object_mem_range (h : SlabInv d a m st live lists) (hm : m.Ok) (hs : slab ∈ st.created)
    (hx : x ∈ objects m slab) : x ∈ d.range := by
  have hb := hm.bounds hx
  refine (h.page slab hs).2 ?_
  simp only [pageCells, Set.mem_Ico]
  omega

/-- A slab on one of the lists was created. -/
theorem mem_created (h : SlabInv d a m st live lists) {head : ℕ}
    (hh : head ∈ [a.partialList, a.fullList, a.emptyList]) (hx : x ∈ lists head) :
    x ∈ st.created := by
  refine h.perm.mem_iff.mp ?_
  simp only [List.mem_cons, List.not_mem_nil, or_false] at hh
  simp only [List.mem_append]
  rcases hh with rfl | rfl | rfl
  · exact Or.inl (Or.inl hx)
  · exact Or.inl (Or.inr hx)
  · exact Or.inr hx

/-- A live object is in no list. -/
theorem live_notMem (h : SlabInv d a m st live lists) (ha : a.Ok d) (hm : m.Ok) (hx : x ∈ live) :
    ∀ h' ∈ listHeads a st.created, x ∉ h' :: lists h' := by
  obtain ⟨slab, hs, hxs⟩ := h.live_mem x hx
  have hrange := h.object_mem_range hm hs hxs
  have hpage := (h.page slab hs).1
  rintro h' (hh' | ⟨slab', hs', rfl⟩) hc
  · rcases List.mem_cons.mp hc with rfl | hc
    · exact ha.outside _ hh' hrange
    · have hx' := h.mem_created hh' hc
      exact (hm.not_header hpage (h.page x hx').1 hxs).1 rfl
  · rcases List.mem_cons.mp hc with hc | hc
    · exact (hm.not_header hpage (h.page slab' hs').1 hxs).2 hc
    · exact ((h.free slab' hs' x).mp hc).2 hx

/-- Only the links and the lists of slabs are changed. -/
theorem relist (h : SlabInv d a m st live lists) {lists' : ℕ → List ℕ}
    (hR : Rings l (listHeads a st.created) lists')
    (hfree : ∀ slab ∈ st.created, lists' (slabFree slab) = lists (slabFree slab))
    (hperm : (lists' a.partialList ++ lists' a.fullList ++ lists' a.emptyList).Perm
      (lists a.partialList ++ lists a.fullList ++ lists a.emptyList)) :
    SlabInv d a m { st with links := l } live lists' where
  rings := hR
  nodup := h.nodup
  perm := hperm.trans h.perm
  page := h.page
  owner := h.owner
  free := fun slab hs x => by
    rw [hfree slab hs]
    exact h.free slab hs x
  inUse := h.inUse
  live_nodup := h.live_nodup
  live_mem := h.live_mem

/-- The link of an entry that is in no list may be wiped. -/
theorem wipe (hR : Rings l (listHeads a st.created) lists)
    (hx : ∀ h' ∈ listHeads a st.created, x ∉ h' :: lists h') :
    Rings ((l.setNext x 0).setPrev x 0) (listHeads a st.created) lists := by
  have hne : ∀ h' ∈ listHeads a st.created, ∀ y ∈ h' :: lists h', y ≠ x := by
    rintro h' hh' y hy rfl
    exact hx h' hh' hy
  exact hR.congr (fun h' hh' y hy => by simp [hne h' hh' y hy])
    fun h' hh' y hy => by simp [hne h' hh' y hy]

end SlabInv

end Tomato
