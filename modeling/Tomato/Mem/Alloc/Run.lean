import Tomato.Mem.Alloc.Create

/-!
# The slabs over whole runs

An allocator for one type, used together with everything else that uses the page table and
the physical allocator. `slabsOk_of_reachable` says that in every reachable state the slabs
are on their lists, with the right counters and free lists, and what the next calls return.
-/

namespace Tomato

open Blocks Links Transition

variable {d : DirectMap} {entries : Memmap} {a : MemAlloc} {m : MemAllocMeta} {st st' : Slabs}
  {live ps : List ℕ} {lists : ℕ → List ℕ} {slab x : ℕ}

/-- The counters are right, but maybe for the first slab of the partial list, which is not
full. -/
structure Chosen (a : MemAlloc) (m : MemAllocMeta) (st : Slabs) (lists : ℕ → List ℕ) (slab : ℕ)
    (ps : List ℕ) : Prop where
  first : lists a.partialList = slab :: ps
  lt : st.inUse slab < m.objectsPerSlab
  rest : ∀ s ∈ ps, 0 < st.inUse s ∧ st.inUse s < m.objectsPerSlab
  fullList : ∀ s ∈ lists a.fullList, st.inUse s = m.objectsPerSlab
  emptyList : ∀ s ∈ lists a.emptyList, st.inUse s = 0


/-- The counter of one slab changes, and maybe its list. -/
theorem SlabBounds.update {n : ℕ} {lists' : ℕ → List ℕ} (hb : SlabBounds a m st lists)
    (huse : st'.inUse = Function.update st.inUse slab n)
    (hsub : ∀ head ∈ [a.partialList, a.fullList, a.emptyList], ∀ s ∈ lists' head, s ≠ slab →
      s ∈ lists head)
    (hp : slab ∈ lists' a.partialList → 0 < n ∧ n < m.objectsPerSlab)
    (hf : slab ∈ lists' a.fullList → n = m.objectsPerSlab)
    (he : slab ∈ lists' a.emptyList → n = 0) : SlabBounds a m st' lists' := by
  have hself : st'.inUse slab = n := by rw [huse, Function.update_self]
  have hother : ∀ s, s ≠ slab → st'.inUse s = st.inUse s := fun s hne => by
    rw [huse, Function.update_of_ne hne]
  refine ⟨fun s hs => ?_, fun s hs => ?_, fun s hs => ?_⟩ <;> by_cases hne : s = slab
  · subst hne
    rw [hself]
    exact hp hs
  · rw [hother s hne]
    exact hb.partialList s (hsub _ (by simp) s hs hne)
  · subst hne
    rw [hself]
    exact hf hs
  · rw [hother s hne]
    exact hb.fullList s (hsub _ (by simp) s hs hne)
  · subst hne
    rw [hself]
    exact he hs
  · rw [hother s hne]
    exact hb.emptyList s (hsub _ (by simp) s hs hne)

namespace SlabInv

/-- `mem_alloc` finds a slab that is not full, unless the physical allocator has no page. -/
theorem chooseSlab (h : SlabInv d a m st live lists) (ha : a.Ok d) (hm : m.Ok)
    (hb : SlabBounds a m st lists) (hp : SlabPages d entries st) :
    (st.chooseSlab d entries a m = some (none, st) ∧ lists a.partialList = [] ∧
      lists a.emptyList = [] ∧ st.virt.physAlloc d PAGE_SIZE = some (none, st.virt)) ∨
    (st.chooseSlab d entries a m = none ∧ ∃ x vs, st.virt.physAlloc d PAGE_SIZE =
      some (some x, vs) ∧ vs.exec d entries (.makeGlobal x 1) = none) ∨
    ∃ slab ps st1 lists1, st.chooseSlab d entries a m = some (some slab, st1) ∧
      SlabInv d a m st1 live lists1 ∧ SlabPages d entries st1 ∧ Chosen a m st1 lists1 slab ps := by
  have hpart := partial_mem_listHeads a st.created
  have hempt := empty_mem_listHeads a st.created
  have hep := h.rings.listEmpty_iff hpart
  have hee := h.rings.listEmpty_iff hempt
  have hobj := hm.objects_ge
  cases hpl : lists a.partialList with
  | cons slab ps =>
    have hnp : st.links.listEmpty a.partialList = false := by
      rw [Bool.eq_false_iff, Ne, hep, hpl]
      simp
    refine Or.inr (Or.inr ⟨slab, ps, st, lists, ?_, h, hp, hpl, ?_, fun s hs => ?_, hb.fullList,
      hb.emptyList⟩)
    · simp [Slabs.chooseSlab, hnp, h.rings.next_head hpart hpl]
    · exact (hb.partialList slab (by simp [hpl])).2
    · exact hb.partialList s (by simp [hpl, hs])
  | nil =>
    have hnp := hep.mpr hpl
    cases hel : lists a.emptyList with
    | cons slab es =>
      have hne : st.links.listEmpty a.emptyList = false := by
        rw [Bool.eq_false_iff, Ne, hee, hel]
        simp
      obtain ⟨l1, l2, e1, e2, h2⟩ := h.rings.move hempt hpart ha.empty_ne.symm
        (show lists a.emptyList = [] ++ slab :: es from hel) LIST_POISON1 LIST_POISON2
      rw [hpl, List.nil_append] at h2
      have huse : st.inUse slab = 0 := hb.emptyList slab (by simp [hel])
      obtain ⟨lists1, hl1⟩ : ∃ f, f = Function.update (Function.update lists a.emptyList es)
        a.partialList [slab] := ⟨_, rfl⟩
      rw [← hl1] at h2
      have hp1 : lists1 a.partialList = [slab] := by rw [hl1, Function.update_self]
      have hf1 : lists1 a.fullList = lists a.fullList := by
        rw [hl1, Function.update_of_ne ha.full_ne, Function.update_of_ne ha.empty_ne_full.symm]
      have he1 : lists1 a.emptyList = es := by
        rw [hl1, Function.update_of_ne ha.empty_ne, Function.update_self]
      refine Or.inr (Or.inr ⟨slab, [], { st with links := l2 }, lists1, ?_,
        h.relist h2 (fun s hs => ?_) ?_, ⟨hp.good, hp.handedOver, hp.held⟩, hp1, ?_, by simp,
        ?_, ?_⟩)
      · simp only [Slabs.chooseSlab, hnp, hne, h.rings.next_head hempt hel, e1, e2, Bool.not_true,
          Bool.not_false, Bool.false_eq_true, if_true, if_false, Option.bind_eq_bind,
          Option.bind_some]
      · have hfree := h.slabFree_ne ha hs
        simp only [List.mem_cons, List.not_mem_nil, or_false, not_or] at hfree
        rw [hl1, Function.update_of_ne hfree.1, Function.update_of_ne hfree.2.2]
      · rw [hp1, hf1, he1, hpl, hel, List.nil_append]
        exact List.perm_middle.symm
      · change st.inUse slab < m.objectsPerSlab
        omega
      · rw [hf1]
        exact hb.fullList
      · rw [he1]
        exact fun s hs => hb.emptyList s (by simp [hel, hs])
    | nil =>
      have hne := hee.mpr hel
      have hcreate : st.chooseSlab d entries a m = (st.slabCreate d entries a m).bind fun r =>
          r.1.elim (some (none, r.2)) fun slab =>
            (r.2.links.listAdd a.partialList slab).bind fun links =>
              some (some slab, { r.2 with links := links }) := by
        simp only [Slabs.chooseSlab, hnp, hne, Bool.not_true, Bool.false_eq_true, if_false,
          Option.bind_eq_bind]
        congr 1
        funext r
        obtain ⟨slab, st1⟩ := r
        cases slab <;> rfl
      rcases h.slabCreate ha hm hp hpl with ⟨e, hnull⟩ | ⟨e, hfail⟩ | ⟨slab, st1, l2, e, e2, hf, h2,
        hp2, huse⟩
      · exact Or.inl ⟨by rw [hcreate, e, Option.bind_some, Option.elim_none], rfl, rfl, hnull⟩
      · exact Or.inr (Or.inl ⟨by rw [hcreate, e, Option.bind_none], hfail⟩)
      · have hcr : ∀ head ∈ [a.partialList, a.fullList, a.emptyList], ∀ s ∈ lists head,
            s ≠ slab := by
          rintro head hh s hs rfl
          exact hf.new (h.mem_created hh hs)
        refine Or.inr (Or.inr ⟨slab, [], { st1 with links := l2 }, _, ?_, h2,
          ⟨hp2.good, hp2.handedOver, hp2.held⟩, Function.update_self _ _ _, ?_, by simp,
          fun s hs => ?_, fun s hs => ?_⟩)
        · rw [hcreate, e, Option.bind_some]
          exact Option.bind_eq_some_iff.mpr ⟨l2, e2, rfl⟩
        · change st1.inUse slab < m.objectsPerSlab
          rw [huse, Function.update_self]
          omega
        · rw [h.createdLists_other ha hm hf (full_mem_listHeads a _) ha.full_ne] at hs
          change st1.inUse s = m.objectsPerSlab
          rw [huse, Function.update_of_ne (hcr _ (by simp) s hs)]
          exact hb.fullList s hs
        · rw [h.createdLists_other ha hm hf hempt ha.empty_ne] at hs
          change st1.inUse s = 0
          rw [huse, Function.update_of_ne (hcr _ (by simp) s hs)]
          exact hb.emptyList s hs

end SlabInv

/-- The counters after an object of the chosen slab was taken. -/
theorem Chosen.bounds {lists' : ℕ → List ℕ} (hc : Chosen a m st lists slab ps)
    (h : SlabInv d a m st live lists) (ha : a.Ok d)
    (huse : st'.inUse = Function.update st.inUse slab (st.inUse slab + 1))
    (he : lists' a.emptyList = lists a.emptyList)
    (hcase : (st.inUse slab + 1 = m.objectsPerSlab ∧ lists' a.partialList = ps ∧
        lists' a.fullList = slab :: lists a.fullList) ∨
      (st.inUse slab + 1 < m.objectsPerSlab ∧ lists' a.partialList = slab :: ps ∧
        lists' a.fullList = lists a.fullList)) : SlabBounds a m st' lists' := by
  have hpart := partial_mem_listHeads a st.created
  have hslab : slab ∈ lists a.partialList := by simp [hc.first]
  have hself : st'.inUse slab = st.inUse slab + 1 := by rw [huse, Function.update_self]
  have hother : ∀ s, s ≠ slab → st'.inUse s = st.inUse s := fun s hne => by
    rw [huse, Function.update_of_ne hne]
  have hps : ∀ s ∈ ps, st'.inUse s = st.inUse s := by
    refine fun s hs => hother s ?_
    rintro rfl
    exact h.notMem_rest hpart (show lists a.partialList = [] ++ s :: ps from hc.first) hs
  have hfs : ∀ s ∈ lists a.fullList, st'.inUse s = st.inUse s := by
    refine fun s hs => hother s ?_
    rintro rfl
    exact h.notMem_other hpart (full_mem_listHeads a _) ha.full_ne.symm hslab hs
  refine ⟨fun s hs => ?_, fun s hs => ?_, fun s hs => ?_⟩
  · rcases hcase with ⟨hn, hp, -⟩ | ⟨hn, hp, -⟩ <;> rw [hp] at hs
    · rw [hps s hs]
      exact hc.rest s hs
    · rcases List.mem_cons.mp hs with rfl | hs
      · omega
      · rw [hps s hs]
        exact hc.rest s hs
  · rcases hcase with ⟨hn, -, hf⟩ | ⟨hn, -, hf⟩ <;> rw [hf] at hs
    · rcases List.mem_cons.mp hs with rfl | hs
      · rw [hself, hn]
      · rw [hfs s hs, hc.fullList s hs]
    · rw [hfs s hs, hc.fullList s hs]
  · rw [he] at hs
    rw [hother s, hc.emptyList s hs]
    rintro rfl
    exact h.notMem_other hpart (empty_mem_listHeads a _) ha.empty_ne.symm hslab hs

namespace SlabInv

/-- `mem_alloc` hands out an object that is not live. -/
theorem memAlloc (h : SlabInv d a m st live lists) (ha : a.Ok d) (hm : m.Ok)
    (hb : SlabBounds a m st lists) (hp : SlabPages d entries st) :
    (st.memAlloc d entries a m = some (none, st) ∧ lists a.partialList = [] ∧
      lists a.emptyList = [] ∧ st.virt.physAlloc d PAGE_SIZE = some (none, st.virt)) ∨
    (st.memAlloc d entries a m = none ∧ ∃ x vs, st.virt.physAlloc d PAGE_SIZE =
      some (some x, vs) ∧ vs.exec d entries (.makeGlobal x 1) = none) ∨
    ∃ x st' lists', st.memAlloc d entries a m = some (some x, st') ∧ x ∉ live ∧
      SlabInv d a m st' (x :: live) lists' ∧ SlabBounds a m st' lists' ∧
      SlabPages d entries st' := by
  rcases h.chooseSlab ha hm hb hp with ⟨e, h0⟩ | ⟨e, h0⟩ | ⟨slab, ps, st1, lists1, e, h1, hp1, hc⟩
  · exact Or.inl ⟨by simp only [Slabs.memAlloc, e, Option.bind_eq_bind, Option.bind_some], h0⟩
  · exact Or.inr (Or.inl ⟨by simp only [Slabs.memAlloc, e, Option.bind_eq_bind, Option.bind_none],
      h0⟩)
  · obtain ⟨x, st', lists', e', hx, hobj, h2, hvirt, hcreated, huse, he2, hcase⟩ :=
      h1.takeObject ha hm hc.first hc.lt
    refine Or.inr (Or.inr ⟨x, st', lists', ?_, hx, h2, ?_, ?_⟩)
    · simp only [Slabs.memAlloc, e, e', Option.bind_eq_bind, Option.bind_some, Option.map_some]
    · refine hc.bounds h1 ha huse he2 hcase
    · exact ⟨hvirt ▸ hp1.good, hvirt ▸ hp1.handedOver, by rw [hvirt, hcreated]; exact hp1.held⟩

/-- The slab of a live object is on the partial or on the full list. -/
theorem list_of_live (h : SlabInv d a m st live lists) (hb : SlabBounds a m st lists)
    (hs : slab ∈ st.created) (huse : 0 < st.inUse slab) :
    slab ∈ lists a.partialList ∨ slab ∈ lists a.fullList := by
  have hmem := h.perm.mem_iff.mpr hs
  rw [List.mem_append, List.mem_append] at hmem
  refine hmem.resolve_right fun hc => ?_
  have := hb.emptyList slab hc
  omega

/-- A slab with a new counter leaves the list `head` and becomes the last one of `head'`. -/
theorem freeMove (h : SlabInv d a m st live lists) (ha : a.Ok d) {head head' : ℕ}
    (hh : head ∈ [a.partialList, a.fullList]) (hh' : head' ∈ [a.partialList, a.emptyList])
    (hne : head' ≠ head) (hmem : slab ∈ lists head) :
    ∃ l1 l2 lists', st.links.listDel LIST_POISON1 LIST_POISON2 slab = some l1 ∧
      l1.listAddTail head' slab = some l2 ∧ SlabInv d a m { st with links := l2 } live lists' ∧
      (∀ h1 ∈ [a.partialList, a.fullList, a.emptyList], ∀ s ∈ lists' h1, s ≠ slab →
        s ∈ lists h1) ∧
      ∀ h1 ∈ [a.partialList, a.fullList, a.emptyList], slab ∈ lists' h1 → h1 = head' := by
  obtain ⟨xs, ys, hxy⟩ := List.append_of_mem hmem
  obtain ⟨l1, l2, e1, e2, h2⟩ := h.moveTail ha hh hh' hne hxy
  have hheads' : head' ∈ [a.partialList, a.fullList, a.emptyList] := by
    simp only [List.mem_cons, List.not_mem_nil, or_false] at hh' ⊢
    tauto
  refine ⟨l1, l2, _, e1, e2, h2, fun h1 hh1 s hs hns => ?_, fun h1 hh1 hs => ?_⟩
  · by_cases he' : h1 = head'
    · subst he'
      rw [Function.update_self, List.mem_append, List.mem_singleton] at hs
      exact hs.resolve_right hns
    · rw [Function.update_of_ne he'] at hs
      by_cases he : h1 = head
      · subst he
        rw [Function.update_self] at hs
        rw [hxy]
        simp only [List.mem_append, List.mem_cons] at hs ⊢
        tauto
      · rwa [Function.update_of_ne he] at hs
  · by_contra hc
    refine h2.notMem_other (Or.inl hh1) (Or.inl hheads') hc hs ?_
    rw [Function.update_self]
    simp

/-- `mem_free` of a live object. -/
theorem memFree (h : SlabInv d a m st live lists) (ha : a.Ok d) (hm : m.Ok)
    (hb : SlabBounds a m st lists) (hx : x ∈ live) :
    ∃ st' lists', st.memFree a m x = some st' ∧ SlabInv d a m st' (live.erase x) lists' ∧
      SlabBounds a m st' lists' ∧ st'.virt = st.virt ∧ st'.created = st.created := by
  obtain ⟨slab, hs, hobj⟩ := h.live_mem x hx
  have hx0 : x ≠ 0 := by
    have := hm.bounds hobj
    omega
  have hto := hm.objectToSlab (h.page slab hs).1 hobj
  obtain ⟨l0, e0, huse, h0⟩ := h.put ha hm hs hobj hx
  have hle := h.inUse_le hs
  obtain ⟨lists0, hl0⟩ : ∃ f, f = Function.update lists (slabFree slab)
    (lists (slabFree slab) ++ [x]) := ⟨_, rfl⟩
  have hlists : ∀ head ∈ [a.partialList, a.fullList, a.emptyList], lists0 head = lists head :=
    fun head hh => hl0 ▸ h.update_free ha hs _ hh
  rw [← hl0] at h0
  have hsub : ∀ head ∈ [a.partialList, a.fullList, a.emptyList], ∀ s ∈ lists0 head,
      s ∈ lists head := fun head hh s hs' => hlists head hh ▸ hs'
  have hwhere := h.list_of_live hb hs huse
  by_cases hlast : st.inUse slab - 1 = 0
  · obtain ⟨head, hh, hmem⟩ : ∃ head ∈ [a.partialList, a.fullList], slab ∈ lists0 head := by
      refine hwhere.elim (fun hc => ⟨a.partialList, by simp, ?_⟩)
        fun hc => ⟨a.fullList, by simp, ?_⟩
      · rwa [hlists _ (by simp)]
      · rwa [hlists _ (by simp)]
    have hne : a.emptyList ≠ head := by
      have n1 := ha.empty_ne
      have n2 := ha.empty_ne_full
      simp only [List.mem_cons, List.not_mem_nil, or_false] at hh
      rcases hh with rfl | rfl
      · exact n1
      · exact n2
    obtain ⟨l1, l2, lists', e1, e2, h2, hsub', hslab⟩ := h0.freeMove ha hh (by simp) hne hmem
    refine ⟨_, lists', ?_, h2, hb.update rfl
      (fun h1 hh1 s hs' hns => hsub h1 hh1 s (hsub' h1 hh1 s hs' hns)) (fun hc => ?_)
      (fun hc => ?_) (fun _ => hlast), rfl, rfl⟩
    · simp only [Slabs.memFree, hx0, hto, h.owner slab hs, e0, huse.ne', hlast, e1, e2, ne_eq,
        not_true_eq_false, if_true, if_false, Option.bind_eq_bind, Option.bind_some]
    · exact absurd (hslab _ (by simp) hc).symm ha.empty_ne
    · exact absurd (hslab _ (by simp) hc).symm ha.empty_ne_full
  by_cases hwas : st.inUse slab = m.objectsPerSlab
  · have hmem : slab ∈ lists0 a.fullList := by
      rw [hlists _ (by simp)]
      refine hwhere.resolve_left fun hc => ?_
      have := (hb.partialList slab hc).2
      omega
    obtain ⟨l1, l2, lists', e1, e2, h2, hsub', hslab⟩ := h0.freeMove ha (by simp)
      (show a.partialList ∈ [a.partialList, a.emptyList] by simp) ha.full_ne.symm hmem
    refine ⟨_, lists', ?_, h2, hb.update rfl
      (fun h1 hh1 s hs' hns => hsub h1 hh1 s (hsub' h1 hh1 s hs' hns)) (fun _ => ?_)
      (fun hc => ?_) (fun hc => ?_), rfl, rfl⟩
    · have hlast' : m.objectsPerSlab - 1 ≠ 0 := hwas ▸ hlast
      have hpos : m.objectsPerSlab ≠ 0 := by omega
      simp only [Slabs.memFree, hx0, hto, h.owner slab hs, e0, hwas, hlast', hpos, e1, e2, ne_eq,
        not_true_eq_false, if_true, if_false, Option.bind_eq_bind, Option.bind_some]
    · omega
    · exact absurd (hslab _ (by simp) hc) ha.full_ne
    · exact absurd (hslab _ (by simp) hc) ha.empty_ne
  · have hmem : slab ∈ lists a.partialList := hwhere.resolve_right fun hc =>
      hwas (hb.fullList slab hc)
    refine ⟨_, lists0, ?_, h0, hb.update rfl (fun h1 hh1 s hs' _ => hsub h1 hh1 s hs')
      (fun _ => ?_) (fun hc => ?_) (fun hc => ?_), rfl, rfl⟩
    · simp only [Slabs.memFree, hx0, hto, h.owner slab hs, e0, huse.ne', hlast, hwas, ne_eq,
        not_true_eq_false, if_false, Option.bind_eq_bind, Option.bind_some]
    · omega
    · exact absurd (hsub _ (by simp) slab hc) (h.notMem_other (partial_mem_listHeads a _)
        (full_mem_listHeads a _) ha.full_ne.symm hmem)
    · exact absurd (hsub _ (by simp) slab hc) (h.notMem_other (partial_mem_listHeads a _)
        (empty_mem_listHeads a _) ha.empty_ne.symm hmem)

end SlabInv

/-- The calls of an allocator, and those of everything else. -/
inductive SlabCall
  | alloc
  | free (ptr : ℕ)
  | other (c : VirtCall)

/-- An allocator and the objects that its clients hold. -/
structure SlabRun where
  slabs : Slabs
  live : List ℕ

namespace SlabRun

variable (d : DirectMap) (entries : Memmap) (a : MemAlloc) (m : MemAllocMeta) (r : SlabRun)

def exec : SlabCall → Option SlabRun
  | .alloc => (r.slabs.memAlloc d entries a m).map fun (object, st) =>
      ⟨st, object.toList ++ r.live⟩
  | .free ptr => (r.slabs.memFree a m ptr).map fun st => ⟨st, r.live.erase ptr⟩
  | .other c => (r.slabs.virt.exec d entries c).map fun vs =>
      { r with slabs := { r.slabs with virt := vs } }

/-- The clients free objects that are live, and nobody else frees a slab. -/
def Valid : SlabCall → Prop
  | .alloc => True
  | .free ptr => ptr ∈ r.live
  | .other c => r.slabs.virt.Valid d c ∧ ∀ slab ∈ r.slabs.created, ∀ size,
      c ≠ .client (.free slab size) ∧ c ≠ .client (.freeReserved slab size)

/-- The lists are empty, and the physical allocator has got its memory. -/
def Initial : Prop :=
  Reachable (VirtState.Initial d entries) (VirtState.Step d entries) r.slabs.virt ∧
    r.slabs.virt.handedOver = true ∧ r.slabs.created = [] ∧ r.live = [] ∧
    ∀ h ∈ [a.partialList, a.fullList, a.emptyList], r.slabs.links.Ring h []

def Step (r r' : SlabRun) : Prop := ∃ c, r.Valid d c ∧ r.exec d entries a m c = some r'

/-- What holds in every reachable state. -/
def Good : Prop :=
  SlabPages d entries r.slabs ∧
    ∃ lists, SlabInv d a m r.slabs r.live lists ∧ SlabBounds a m r.slabs lists

variable {d entries a m r} {r' : SlabRun}

/-- There are no slabs yet. -/
theorem good_of_created_nil (hg : r.slabs.virt.Good d entries)
    (hl : r.slabs.virt.handedOver = true) (hcr : r.slabs.created = []) (hlive : r.live = [])
    (hring : ∀ h ∈ [a.partialList, a.fullList, a.emptyList], r.slabs.links.Ring h []) :
    r.Good d entries a m := by
  have hheads : ∀ h ∈ listHeads a [], h ∈ [a.partialList, a.fullList, a.emptyList] := by
    rintro h (hh | ⟨slab, hs, -⟩)
    · exact hh
    · simp at hs
  refine ⟨⟨hg, hl, by simp [hcr]⟩, fun _ => [],
    ⟨?_, by simp [hcr], by simp [hcr], by simp [hcr], by simp [hcr], by simp [hcr], by simp [hcr],
      by simp [hlive], by simp [hlive]⟩, by simp, by simp, by simp⟩
  rw [hcr]
  refine ⟨fun h hh => hring h (hheads h hh), fun h hh h' hh' hne x hx hx' => hne ?_⟩
  simp only [List.mem_singleton] at hx hx'
  exact hx.symm.trans hx'

theorem good_of_initial (hv : entries.Valid) (hd : entries.HasDirectMap d)
    (hk : KERNEL_REGION_BASE ≤ d.base) (ha : a.Ok d) (h : r.Initial d entries a) :
    r.Good d entries a m := by
  obtain ⟨hreach, hl, hcr, hlive, hring⟩ := h
  exact good_of_created_nil (VirtState.good_of_reachable hv hd hk hreach) hl hcr hlive hring

end SlabRun

/-- The pages that the clients hold are kept, but for those that a call frees. -/
theorem Clients.live_of_exec {t t' : Clients} {c : Call} {b : ℕ} (he : t.exec d c = some t')
    (hc : ∀ size, c ≠ .free b size ∧ c ≠ .freeReserved b size) (hb : block b 6 ∈ t.live) :
    block b 6 ∈ t'.live := by
  have hout : ∀ size r, block b 6 ∈ (t.handOut size r).live := by
    rintro size ⟨_ | p, s⟩
    · exact hb
    · exact List.mem_cons_of_mem _ hb
  have hback : ∀ ptr size s, ptr ≠ b → block b 6 ∈ (t.takeBack ptr size s).live := by
    intro ptr size s hne
    refine (List.mem_erase_of_ne fun hc => hne ?_).mpr hb
    exact (congrArg Block.addr hc).symm
  cases c with
  | addMemory start end_ =>
      obtain ⟨s, -, rfl⟩ := Option.map_eq_some_iff.mp he
      exact hb
  | addCommitted n | reserve n | write b' content =>
      obtain rfl := Option.some.inj he
      exact hb
  | alloc size | allocReserved size =>
      obtain ⟨r, -, rfl⟩ := Option.map_eq_some_iff.mp he
      exact hout size r
  | free ptr size =>
      obtain ⟨s, -, rfl⟩ := Option.map_eq_some_iff.mp he
      exact hback ptr size s fun h => (hc size).1 (h ▸ rfl)
  | freeReserved ptr size =>
      obtain ⟨s, -, rfl⟩ := Option.map_eq_some_iff.mp he
      exact hback ptr size s fun h => (hc size).2 (h ▸ rfl)
  | unreserve n =>
      obtain ⟨s, -, rfl⟩ := Option.map_eq_some_iff.mp he
      exact hb

theorem VirtState.handedOver_of_exec {vs vs' : VirtState} {c : VirtCall}
    (hl : vs.handedOver = true) (he : vs.exec d entries c = some vs') :
    vs'.handedOver = true := by
  cases c <;> obtain ⟨_, -, rfl⟩ := Option.map_eq_some_iff.mp he <;> first | exact hl | rfl

theorem VirtState.bootPages_of_exec {vs vs' : VirtState} {c : VirtCall}
    (hl : vs.handedOver = true) (hv : vs.Valid d c) (he : vs.exec d entries c = some vs') :
    vs'.bootPages = vs.bootPages := by
  cases c with
  | earlyMap virt phys numPages flags | earlyMapBitmapPage bitmapPtr | earlyAddMemory =>
      simp [Valid, hl] at hv
  | makeGlobal base pageCount | reservePageTables base pageCount | free base pageCount =>
      obtain ⟨s, -, rfl⟩ := Option.map_eq_some_iff.mp he
      rfl
  | populate base pageCount globalPage =>
      obtain ⟨s, -, rfl⟩ := Option.map_eq_some_iff.mp he
      rfl
  | client c =>
      obtain ⟨t, e, rfl⟩ := Option.map_eq_some_iff.mp he
      rfl

theorem VirtState.live_of_exec {vs vs' : VirtState} {c : VirtCall} {b : ℕ}
    (hl : vs.handedOver = true) (hv : vs.Valid d c) (he : vs.exec d entries c = some vs')
    (hc : ∀ size, c ≠ .client (.free b size) ∧ c ≠ .client (.freeReserved b size))
    (hb : block b 6 ∈ vs.boot.clients.live) : block b 6 ∈ vs'.boot.clients.live := by
  cases c with
  | earlyMap virt phys numPages flags | earlyMapBitmapPage bitmapPtr | earlyAddMemory =>
      simp [Valid, hl] at hv
  | makeGlobal base pageCount | reservePageTables base pageCount | free base pageCount =>
      obtain ⟨s, -, rfl⟩ := Option.map_eq_some_iff.mp he
      exact hb
  | populate base pageCount globalPage =>
      obtain ⟨s, -, rfl⟩ := Option.map_eq_some_iff.mp he
      exact hb
  | client c =>
      obtain ⟨t, e, rfl⟩ := Option.map_eq_some_iff.mp he
      refine Clients.live_of_exec e (fun size => ?_) hb
      exact ⟨fun h => (hc size).1 (h ▸ rfl), fun h => (hc size).2 (h ▸ rfl)⟩

/-- What `mem_alloc` does to the memory: nothing, or it takes a page for a new slab and makes
it global. -/
def SlabPage (d : DirectMap) (entries : Memmap) (vs vs' : VirtState) : Prop :=
  vs' = vs ∨ ∃ p vs1, vs.physAlloc d PAGE_SIZE = some (p, vs1) ∧
    match p with
    | none => vs' = vs1
    | some slab => vs1.exec d entries (.makeGlobal slab 1) = some vs'

namespace Slabs

variable {o : Option ℕ}

theorem slabCreate_virt (he : st.slabCreate d entries a m = some (o, st')) :
    SlabPage d entries st.virt st'.virt := by
  simp only [Slabs.slabCreate, Option.bind_eq_bind] at he
  obtain ⟨⟨p, vs1⟩, e1, he⟩ := Option.bind_eq_some_iff.mp he
  refine Or.inr ⟨p, vs1, e1, ?_⟩
  cases p with
  | none =>
    simp only [Option.some.injEq, Prod.mk.injEq] at he
    simp [← he.2]
  | some slab =>
    simp only at he
    obtain ⟨vs2, e2, he⟩ := Option.bind_eq_some_iff.mp he
    obtain ⟨l, -, he⟩ := Option.bind_eq_some_iff.mp he
    simp only [Option.some.injEq, Prod.mk.injEq] at he
    simp [← he.2, e2]

theorem chooseSlab_virt (he : st.chooseSlab d entries a m = some (o, st')) :
    SlabPage d entries st.virt st'.virt := by
  simp only [Slabs.chooseSlab, Option.bind_eq_bind] at he
  split at he
  · simp only [Option.some.injEq, Prod.mk.injEq] at he
    exact Or.inl (by rw [← he.2])
  split at he
  · obtain ⟨l1, -, he⟩ := Option.bind_eq_some_iff.mp he
    obtain ⟨l2, -, he⟩ := Option.bind_eq_some_iff.mp he
    simp only [Option.some.injEq, Prod.mk.injEq] at he
    exact Or.inl (by rw [← he.2])
  · obtain ⟨⟨p, st1⟩, e1, he⟩ := Option.bind_eq_some_iff.mp he
    have h1 := slabCreate_virt e1
    cases p with
    | none =>
      simp only [Option.some.injEq, Prod.mk.injEq] at he
      rwa [← he.2]
    | some slab =>
      obtain ⟨l, -, he⟩ := Option.bind_eq_some_iff.mp he
      simp only [Option.some.injEq, Prod.mk.injEq] at he
      rwa [← he.2]

theorem takeObject_virt {r : ℕ × Slabs} (he : st.takeObject a m slab = some r) :
    r.2.virt = st.virt := by
  simp only [Slabs.takeObject, Option.bind_eq_bind] at he
  split at he
  · simp at he
  obtain ⟨l1, -, he⟩ := Option.bind_eq_some_iff.mp he
  split at he
  · obtain ⟨l2, -, he⟩ := Option.bind_eq_some_iff.mp he
    obtain ⟨l3, -, he⟩ := Option.bind_eq_some_iff.mp he
    rw [← Option.some.inj he]
  · rw [← Option.some.inj he]

theorem memAlloc_virt (he : st.memAlloc d entries a m = some (o, st')) :
    SlabPage d entries st.virt st'.virt := by
  simp only [Slabs.memAlloc, Option.bind_eq_bind] at he
  obtain ⟨⟨p, st1⟩, e1, he⟩ := Option.bind_eq_some_iff.mp he
  have h1 := chooseSlab_virt e1
  cases p with
  | none =>
    simp only [Option.some.injEq, Prod.mk.injEq] at he
    rwa [← he.2]
  | some slab =>
    obtain ⟨r, e2, he⟩ := Option.map_eq_some_iff.mp he
    simp only [Prod.mk.injEq] at he
    rwa [← he.2, takeObject_virt e2]

end Slabs

namespace SlabRun

variable {r r' : SlabRun} {c : SlabCall}

/-- Every step keeps the invariant. -/
theorem good_exec (ha : a.Ok d) (hm : m.Ok) (h : r.Good d entries a m) (hv : r.Valid d c)
    (he : r.exec d entries a m c = some r') : r'.Good d entries a m := by
  obtain ⟨hp, lists, hi, hb⟩ := h
  cases c with
  | alloc =>
      obtain ⟨⟨o, st'⟩, e, rfl⟩ := Option.map_eq_some_iff.mp he
      rcases hi.memAlloc ha hm hb hp with ⟨e', -⟩ | ⟨e', -⟩ | ⟨x, st1, lists1, e', -, h1, hb1, hp1⟩
      · obtain ⟨rfl, rfl⟩ := Prod.mk.inj (Option.some.inj (e.symm.trans e'))
        exact ⟨hp, lists, hi, hb⟩
      · simp [e] at e'
      · obtain ⟨rfl, rfl⟩ := Prod.mk.inj (Option.some.inj (e.symm.trans e'))
        exact ⟨hp1, lists1, h1, hb1⟩
  | free ptr =>
      obtain ⟨st', e, rfl⟩ := Option.map_eq_some_iff.mp he
      obtain ⟨st1, lists1, e', h1, hb1, hvirt, hcreated⟩ := hi.memFree ha hm hb hv
      obtain rfl := Option.some.inj (e.symm.trans e')
      refine ⟨⟨?_, ?_, ?_⟩, lists1, h1, hb1⟩
      · exact hvirt ▸ hp.good
      · exact hvirt ▸ hp.handedOver
      · change ∀ slab ∈ st'.created, block slab 6 ∈ st'.virt.boot.clients.live
        rw [hvirt, hcreated]
        exact hp.held
  | other c =>
      obtain ⟨vs, e, rfl⟩ := Option.map_eq_some_iff.mp he
      obtain ⟨hvalid, hfree⟩ := hv
      refine ⟨⟨(VirtState.good_exec hp.good hvalid e).1,
        VirtState.handedOver_of_exec hp.handedOver e, fun slab hs =>
          VirtState.live_of_exec hp.handedOver hvalid e (hfree slab hs) (hp.held slab hs)⟩, lists,
        ⟨hi.rings, hi.nodup, hi.perm, hi.page, hi.owner, hi.free, hi.inUse, hi.live_nodup,
          hi.live_mem⟩, ⟨hb.partialList, hb.fullList, hb.emptyList⟩⟩

theorem good_of_reachable (hv : entries.Valid) (hd : entries.HasDirectMap d)
    (hk : KERNEL_REGION_BASE ≤ d.base) (ha : a.Ok d) (hm : m.Ok)
    (h : Reachable (Initial d entries a) (Step d entries a m) r) : r.Good d entries a m :=
  h.invariant (fun _ h0 => good_of_initial hv hd hk ha h0) fun _ _ hg ⟨_, hc, he⟩ =>
    good_exec ha hm hg hc he

theorem Good.live_subset (h : r.Good d entries a m) (hm : m.Ok) (hx : x ∈ r.live) : x ∈ d.range := by
  obtain ⟨-, lists, hi, -⟩ := h
  obtain ⟨slab, hs, hobj⟩ := hi.live_mem x hx
  exact hi.object_mem_range hm hs hobj

/-- The object is a new one. -/
theorem Good.memAlloc {o : Option ℕ} (h : r.Good d entries a m) (ha : a.Ok d) (hm : m.Ok)
    (he : r.slabs.memAlloc d entries a m = some (o, st')) :
    (SlabRun.mk st' (o.toList ++ r.live)).Good d entries a m ∧
      ∀ x, o = some x → x ∉ r.live ∧ x ∈ d.range := by
  have hg : (SlabRun.mk st' (o.toList ++ r.live)).Good d entries a m :=
    good_exec ha hm h (c := .alloc) trivial (by simp [exec, he])
  refine ⟨hg, ?_⟩
  rintro x rfl
  refine ⟨?_, hg.live_subset hm (by simp)⟩
  obtain ⟨hp, lists, hi, hb⟩ := h
  rcases hi.memAlloc ha hm hb hp with ⟨e', -⟩ | ⟨e', -⟩ | ⟨y, st1, lists1, e', hy, -⟩
  · simp [he] at e'
  · simp [he] at e'
  · simp only [he, Option.some.injEq, Prod.mk.injEq] at e'
    exact e'.1 ▸ hy

theorem Good.memFree (h : r.Good d entries a m) (ha : a.Ok d) (hm : m.Ok) (hx : x ∈ r.live) :
    ∃ r', r.exec d entries a m (.free x) = some r' ∧ r'.Good d entries a m ∧
      r'.live = r.live.erase x ∧ r'.slabs.virt = r.slabs.virt := by
  obtain ⟨-, lists, hi, hb⟩ := id h
  obtain ⟨st', -, e, -, -, hvirt, -⟩ := hi.memFree ha hm hb hx
  have he : r.exec d entries a m (.free x) = some ⟨st', r.live.erase x⟩ := by simp [exec, e]
  exact ⟨_, he, good_exec ha hm h (c := .free x) hx he, rfl, hvirt⟩

/-- The slabs are on the lists `ps`, `fs` and `es`, and `free` are the free lists. -/
structure SlabsOk (d : DirectMap) (entries : Memmap) (a : MemAlloc) (m : MemAllocMeta)
    (r : SlabRun) (ps fs es : List ℕ) (free : ℕ → List ℕ) : Prop where
  partialRing : r.slabs.links.Ring a.partialList ps
  fullRing : r.slabs.links.Ring a.fullList fs
  emptyRing : r.slabs.links.Ring a.emptyList es
  once : (ps ++ fs ++ es).Perm r.slabs.created ∧ r.slabs.created.Nodup
  inUse : ∀ slab ∈ r.slabs.created,
    r.slabs.inUse slab = (objects m slab).countP (· ∈ r.live)
  onPartial : ∀ slab ∈ ps, 0 < r.slabs.inUse slab ∧ r.slabs.inUse slab < m.objectsPerSlab
  onFull : ∀ slab ∈ fs, r.slabs.inUse slab = m.objectsPerSlab
  onEmpty : ∀ slab ∈ es, r.slabs.inUse slab = 0
  freeRing : ∀ slab ∈ r.slabs.created, r.slabs.links.Ring (slabFree slab) (free slab) ∧
    ∀ x, x ∈ free slab ↔ x ∈ objects m slab ∧ x ∉ r.live
  memAlloc : ∀ x st', r.slabs.memAlloc d entries a m = some (some x, st') →
    x ∉ r.live ∧ ∃ slab ∈ st'.created, x ∈ objects m slab
  memAlloc_null : ∀ st', r.slabs.memAlloc d entries a m = some (none, st') →
    st' = r.slabs ∧ ps = [] ∧ es = [] ∧
      r.slabs.virt.physAlloc d PAGE_SIZE = some (none, r.slabs.virt)
  memFree : ∀ x ∈ r.live, ∃ st', r.slabs.memFree a m x = some st'

/-- The invariant of the slabs holds in every state of every run, for every type that
`DEFINE_ALLOC` admits. -/
theorem slabsOk_of_reachable {T : CType} (hv : entries.Valid) (hd : entries.HasDirectMap d)
    (hk : KERNEL_REGION_BASE ≤ d.base) (ha : a.Ok d) (hT : T.DefineAlloc)
    (h : Reachable (Initial d entries a) (Step d entries a T.allocMeta) r) :
    ∃ ps fs es free, SlabsOk d entries a T.allocMeta r ps fs es free := by
  obtain ⟨hp, lists, hi, hb⟩ := good_of_reachable hv hd hk ha hT.ok h
  refine ⟨lists a.partialList, lists a.fullList, lists a.emptyList,
    fun slab => lists (slabFree slab),
    ⟨hi.rings.ring _ (partial_mem_listHeads a _), hi.rings.ring _ (full_mem_listHeads a _),
      hi.rings.ring _ (empty_mem_listHeads a _), ⟨hi.perm, hi.nodup⟩, hi.inUse, hb.partialList,
      hb.fullList, hb.emptyList, fun slab hs =>
        ⟨hi.rings.ring _ (slabFree_mem_listHeads hs), hi.free slab hs⟩,
      fun x st' e => ?_, fun st' e => ?_, fun x hx => ?_⟩⟩
  · rcases hi.memAlloc ha hT.ok hb hp with ⟨e', -⟩ | ⟨e', -⟩ | ⟨y, st1, lists1, e', hy, h1, -, -⟩
    · simp [e] at e'
    · simp [e] at e'
    · obtain ⟨hxy, rfl⟩ := Prod.mk.inj (Option.some.inj (e.symm.trans e'))
      obtain rfl := Option.some.inj hxy
      exact ⟨hy, h1.live_mem x List.mem_cons_self⟩
  · rcases hi.memAlloc ha hT.ok hb hp with ⟨e', hpn, hen, hnull⟩ | ⟨e', -⟩ | ⟨y, st1, -, e', -⟩
    · exact ⟨(Prod.mk.inj (Option.some.inj (e.symm.trans e'))).2, hpn, hen, hnull⟩
    · simp [e] at e'
    · simp [e] at e'
  · obtain ⟨st', -, e, -⟩ := hi.memFree ha hT.ok hb hx
    exact ⟨st', e⟩

/-- A type of 64 bytes. -/
def cacheLine : CType := ⟨64, 64, ⟨6, rfl⟩, ⟨1, rfl⟩⟩

/-- An allocator in the data of the kernel. -/
def lineAlloc : MemAlloc := ⟨0x1000, 0x1010, 0x1020, 0x1030⟩

theorem slabsOk_cacheLine : ∃ r : SlabRun, ∃ ps fs es free,
    SlabsOk VirtState.eightPagesMap VirtState.eightPages lineAlloc cacheLine.allocMeta r
      ps fs es free := by
  obtain ⟨vs, hvs, hl, -⟩ := VirtState.exists_reachable_eightPages
  let l : Links ℕ := ⟨id, id⟩
  refine ⟨⟨⟨l, fun _ => 0, fun _ => 0, vs, []⟩, []⟩, slabsOk_of_reachable
    VirtState.eightPages_valid (show 0x108 = 0x108000 / PAGE_SIZE by decide) le_rfl
    ⟨by decide, by decide, by decide, ?_⟩ ⟨by decide, by decide, by decide, by decide, by decide,
      by decide, by decide⟩ (.start ⟨hvs, hl, rfl, rfl, fun h _ => ?_⟩)⟩
  · simp only [DirectMap.range, VirtState.eightPagesMap, lineAlloc]
    intro h hh
    simp only [List.mem_cons, List.not_mem_nil, or_false] at hh
    simp only [Set.mem_Ico]
    omega
  · exact ⟨List.nodup_singleton h, rfl, rfl⟩

end SlabRun

end Tomato
