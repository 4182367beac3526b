import Tomato.Mem.Alloc.Invariant

/-!
# Taking and returning an object

An object is the first of the free list of its slab when it is handed out, and it becomes
the last one when it comes back. The slab may have to change its list then.
-/

namespace Tomato

open Links

variable {d : DirectMap} {a : MemAlloc} {m : MemAllocMeta} {st : Slabs} {live ps rest : List ℕ}
  {lists : ℕ → List ℕ} {l : Links ℕ} {slab x : ℕ}

namespace SlabInv

theorem update_free (h : SlabInv d a m st live lists) (ha : a.Ok d) (hs : slab ∈ st.created)
    (xs : List ℕ) {head : ℕ} (hh : head ∈ [a.partialList, a.fullList, a.emptyList]) :
    Function.update lists (slabFree slab) xs head = lists head := by
  refine Function.update_of_ne ?_ _ _
  rintro rfl
  exact h.slabFree_ne ha hs hh

/-- The counter of a slab is a 16-bit number. -/
theorem inUse_le (h : SlabInv d a m st live lists) (hs : slab ∈ st.created) :
    st.inUse slab ≤ m.objectsPerSlab := by
  rw [h.inUse slab hs]
  exact List.countP_le_length.trans_eq length_objects

/-- A slab that is not full has a free object. -/
theorem exists_free (h : SlabInv d a m st live lists) (hs : slab ∈ st.created)
    (hlt : st.inUse slab < m.objectsPerSlab) : ∃ x rest, lists (slabFree slab) = x :: rest := by
  cases hl : lists (slabFree slab) with
  | cons x rest => exact ⟨x, rest, rfl⟩
  | nil =>
      rw [h.inUse slab hs, ← show (objects m slab).length = m.objectsPerSlab from length_objects] at hlt
      refine absurd (List.countP_eq_length.mpr fun x hx => ?_) hlt.ne
      by_contra hlive
      have := (h.free slab hs x).mpr ⟨hx, by simpa using hlive⟩
      simp [hl] at this

/-- The first free object of the slab is taken. -/
theorem take (h : SlabInv d a m st live lists) (ha : a.Ok d) (hm : m.Ok) (hs : slab ∈ st.created)
    (hx : lists (slabFree slab) = x :: rest) :
    ∃ l1, st.links.listDel LIST_POISON1 LIST_POISON2 x = some l1 ∧
      SlabInv d a m { st with
        links := (l1.setNext x 0).setPrev x 0
        inUse := Function.update st.inUse slab (st.inUse slab + 1) }
        (x :: live) (Function.update lists (slabFree slab) rest) := by
  have hh := slabFree_mem_listHeads (a := a) hs
  have hx' : lists (slabFree slab) = [] ++ x :: rest := hx
  obtain ⟨l1, e, h1⟩ := h.rings.listDel hh hx' LIST_POISON1 LIST_POISON2
  have hout := h.rings.notMem_of_del hh hx'
  rw [List.nil_append] at h1 hout
  obtain ⟨hobj, hlive⟩ := (h.free slab hs x).mp (hx ▸ List.mem_cons_self)
  have hnd : (x :: rest).Nodup := hx ▸ (List.nodup_cons.mp (h.rings.ring _ hh).1).2
  refine ⟨l1, e, wipe h1 hout, h.nodup, ?_, h.page, h.owner, fun slab' hs' y => ?_,
    fun slab' hs' => ?_, List.nodup_cons.mpr ⟨hlive, h.live_nodup⟩, fun y hy => ?_⟩
  · rw [h.update_free ha hs _ (by simp), h.update_free ha hs _ (by simp),
      h.update_free ha hs _ (by simp)]
    exact h.perm
  · by_cases he : slab' = slab
    · subst he
      have hf := h.free slab' hs' y
      rw [hx, List.mem_cons] at hf
      rw [Function.update_self, List.mem_cons, not_or]
      have hxr : x ∉ rest := (List.nodup_cons.mp hnd).1
      constructor
      · intro hy
        have hyo := hf.mp (Or.inr hy)
        refine ⟨hyo.1, ?_, hyo.2⟩
        rintro rfl
        exact hxr hy
      · rintro ⟨hyo, hyx, hyl⟩
        exact (hf.mpr ⟨hyo, hyl⟩).resolve_left hyx
    · have hne : slabFree slab' ≠ slabFree slab := fun hc => he (slabFree_inj hc)
      rw [Function.update_of_ne hne, h.free slab' hs' y, List.mem_cons, not_or]
      refine and_congr_right fun hyo => ⟨fun hyl => ⟨?_, hyl⟩, fun hyl => hyl.2⟩
      rintro rfl
      exact he (hm.eq_of_mem (h.page slab' hs').1 (h.page slab hs).1 hyo hobj)
  · change Function.update st.inUse slab (st.inUse slab + 1) slab' = _
    rw [countP_cons_live (hm.nodup slab') hlive]
    by_cases he : slab' = slab
    · subst he
      rw [Function.update_self, if_pos hobj, h.inUse slab' hs']
    · rw [Function.update_of_ne he, if_neg, h.inUse slab' hs', Nat.add_zero]
      exact fun hc => he (hm.eq_of_mem (h.page slab' hs').1 (h.page slab hs).1 hc hobj)
  · rcases List.mem_cons.mp hy with rfl | hy
    · exact ⟨slab, hs, hobj⟩
    · exact h.live_mem y hy

/-- The second part of `mem_alloc`: an object of the slab that is first on the partial list
is handed out, and the slab moves to the full list if this was the last one. -/
theorem takeObject (h : SlabInv d a m st live lists) (ha : a.Ok d) (hm : m.Ok)
    (hp : lists a.partialList = slab :: ps) (hlt : st.inUse slab < m.objectsPerSlab) :
    ∃ x st' lists', st.takeObject a m slab = some (x, st') ∧ x ∉ live ∧ x ∈ objects m slab ∧
      SlabInv d a m st' (x :: live) lists' ∧ st'.virt = st.virt ∧ st'.created = st.created ∧
      st'.inUse = Function.update st.inUse slab (st.inUse slab + 1) ∧
      lists' a.emptyList = lists a.emptyList ∧
      ((st.inUse slab + 1 = m.objectsPerSlab ∧ lists' a.partialList = ps ∧
          lists' a.fullList = slab :: lists a.fullList) ∨
        (st.inUse slab + 1 < m.objectsPerSlab ∧ lists' a.partialList = slab :: ps ∧
          lists' a.fullList = lists a.fullList)) := by
  have hs : slab ∈ st.created := h.mem_created (by simp) (hp ▸ List.mem_cons_self)
  have hh := slabFree_mem_listHeads (a := a) hs
  obtain ⟨x, rest, hx⟩ := h.exists_free hs hlt
  obtain ⟨hobj, hlive⟩ := (h.free slab hs x).mp (hx ▸ List.mem_cons_self)
  obtain ⟨l1, e1, h1⟩ := h.take ha hm hs hx
  have hempty : st.links.listEmpty (slabFree slab) = false := by
    rw [Bool.eq_false_iff, Ne, h.rings.listEmpty_iff hh, hx]
    simp
  have hnext : st.links.next (slabFree slab) = x := h.rings.next_head hh hx
  have hmod : (st.inUse slab + 1) % 2 ^ 16 = st.inUse slab + 1 := by
    have := hm.objects_le
    rw [UINT16_MAX] at this
    exact Nat.mod_eq_of_lt (by omega)
  obtain ⟨lists1, hl1⟩ : ∃ f, f = Function.update lists (slabFree slab) rest := ⟨_, rfl⟩
  rw [← hl1] at h1
  have hp1 : lists1 a.partialList = [] ++ slab :: ps := by
    rw [hl1, h.update_free ha hs _ (by simp), hp, List.nil_append]
  have hf1 : lists1 a.fullList = lists a.fullList := hl1 ▸ h.update_free ha hs _ (by simp)
  have he1 : lists1 a.emptyList = lists a.emptyList := hl1 ▸ h.update_free ha hs _ (by simp)
  by_cases hfull : st.inUse slab + 1 = m.objectsPerSlab
  · obtain ⟨l2, l3, e2, e3, h3⟩ := h1.rings.move (partial_mem_listHeads a st.created)
      (full_mem_listHeads a st.created) ha.full_ne hp1 LIST_POISON1 LIST_POISON2
    rw [List.nil_append, hf1] at h3
    refine ⟨x, _, Function.update (Function.update lists1 a.partialList ps) a.fullList
      (slab :: lists a.fullList), ?_, hlive, hobj, h1.relist h3 (fun slab' hs' => ?_) ?_, rfl, rfl,
      rfl, ?_, Or.inl ⟨hfull, ?_, Function.update_self _ _ _⟩⟩
    · simp only [Slabs.takeObject, hempty, hnext, e1, hmod, if_pos hfull, e2, e3,
        Bool.false_eq_true, if_false, Option.bind_eq_bind, Option.bind_some]
    · have hne := h.slabFree_ne ha hs'
      simp only [List.mem_cons, List.not_mem_nil, or_false, not_or] at hne
      rw [Function.update_of_ne hne.2.1, Function.update_of_ne hne.1]
    · rw [Function.update_of_ne ha.full_ne.symm, Function.update_self, Function.update_self,
        Function.update_of_ne ha.empty_ne_full, Function.update_of_ne ha.empty_ne, hp1, hf1,
        List.nil_append]
      exact (List.perm_middle (a := slab)).append_right _
    · rw [Function.update_of_ne ha.empty_ne_full, Function.update_of_ne ha.empty_ne, he1]
    · rw [Function.update_of_ne ha.full_ne.symm, Function.update_self]
  · refine ⟨x, _, lists1, ?_, hlive, hobj, h1, rfl, rfl, rfl, he1, Or.inr ⟨by omega, hp1, hf1⟩⟩
    simp only [Slabs.takeObject, hempty, hnext, e1, hmod, hfull, Bool.false_eq_true, if_false,
      Option.bind_eq_bind, Option.bind_some]

/-- A live object becomes the last free object of its slab. -/
theorem put (h : SlabInv d a m st live lists) (ha : a.Ok d) (hm : m.Ok) (hs : slab ∈ st.created)
    (hx : x ∈ objects m slab) (hlive : x ∈ live) :
    ∃ l1, ((st.links.setNext x 0).setPrev x 0).listAddTail (slabFree slab) x = some l1 ∧
      0 < st.inUse slab ∧
      SlabInv d a m { st with
        links := l1
        inUse := Function.update st.inUse slab (st.inUse slab - 1) }
        (live.erase x) (Function.update lists (slabFree slab) (lists (slabFree slab) ++ [x])) := by
  have hh := slabFree_mem_listHeads (a := a) hs
  have hout := h.live_notMem ha hm hlive
  obtain ⟨l1, e, h1⟩ := (wipe h.rings hout).listAddTail hh hout
  have hmem : ∀ y, y ∈ live.erase x ↔ y ≠ x ∧ y ∈ live := fun y => h.live_nodup.mem_erase_iff
  have hcount := fun slab' => countP_erase_live (hm.nodup slab') h.live_nodup hlive
  have huse : st.inUse slab = (objects m slab).countP (· ∈ live.erase x) + 1 := by
    rw [h.inUse slab hs, hcount slab, if_pos hx]
  refine ⟨l1, e, by omega, h1, h.nodup, ?_, h.page, h.owner, fun slab' hs' y => ?_,
    fun slab' hs' => ?_, h.live_nodup.erase x, fun y hy => h.live_mem y ((hmem y).mp hy).2⟩
  · rw [h.update_free ha hs _ (by simp), h.update_free ha hs _ (by simp),
      h.update_free ha hs _ (by simp)]
    exact h.perm
  · by_cases he : slab' = slab
    · subst he
      rw [Function.update_self, List.mem_append, List.mem_singleton, h.free slab' hs' y, hmem y]
      constructor
      · rintro (⟨hyo, hyl⟩ | rfl)
        · exact ⟨hyo, fun hc => hyl hc.2⟩
        · exact ⟨hx, fun hc => hc.1 rfl⟩
      · rintro ⟨hyo, hyl⟩
        by_cases hyx : y = x
        · exact Or.inr hyx
        · exact Or.inl ⟨hyo, fun hc => hyl ⟨hyx, hc⟩⟩
    · have hne : slabFree slab' ≠ slabFree slab := fun hc => he (slabFree_inj hc)
      rw [Function.update_of_ne hne, h.free slab' hs' y, hmem y]
      refine and_congr_right fun hyo => ⟨fun hyl hc => hyl hc.2, fun hyl hc => hyl ⟨?_, hc⟩⟩
      rintro rfl
      exact he (hm.eq_of_mem (h.page slab' hs').1 (h.page slab hs).1 hyo hx)
  · change Function.update st.inUse slab (st.inUse slab - 1) slab' = _
    by_cases he : slab' = slab
    · subst he
      rw [Function.update_self, huse, Nat.add_sub_cancel]
    · rw [Function.update_of_ne he, h.inUse slab' hs', hcount slab', if_neg, Nat.add_zero]
      exact fun hc => he (hm.eq_of_mem (h.page slab' hs').1 (h.page slab hs).1 hc hx)

/-- A slab is on one list only. -/
theorem notMem_other (h : SlabInv d a m st live lists) {head head' : ℕ}
    (hh : head ∈ listHeads a st.created) (hh' : head' ∈ listHeads a st.created)
    (hne : head ≠ head') (hx : x ∈ lists head) : x ∉ lists head' := fun hc =>
  h.rings.disjoint head hh head' hh' hne x (List.mem_cons_of_mem _ hx) (List.mem_cons_of_mem _ hc)

theorem notMem_rest (h : SlabInv d a m st live lists) {head : ℕ} {xs ys : List ℕ}
    (hh : head ∈ listHeads a st.created) (hx : lists head = xs ++ x :: ys) : x ∉ xs ++ ys := by
  have hnd := (List.nodup_cons.mp (h.rings.ring head hh).1).2
  rw [hx] at hnd
  exact (List.nodup_cons.mp (List.perm_middle.nodup_iff.mp hnd)).1

/-- A slab changes its list. -/
theorem moveTail (h : SlabInv d a m st live lists) (ha : a.Ok d) {head head' : ℕ}
    {xs ys : List ℕ} (hh : head ∈ [a.partialList, a.fullList])
    (hh' : head' ∈ [a.partialList, a.emptyList]) (hne : head' ≠ head)
    (hx : lists head = xs ++ slab :: ys) :
    ∃ l1 l2, st.links.listDel LIST_POISON1 LIST_POISON2 slab = some l1 ∧
      l1.listAddTail head' slab = some l2 ∧
      SlabInv d a m { st with links := l2 } live
        (Function.update (Function.update lists head (xs ++ ys)) head' (lists head' ++ [slab])) := by
  have hheads : head ∈ [a.partialList, a.fullList, a.emptyList] := by
    simp only [List.mem_cons, List.not_mem_nil, or_false] at hh ⊢
    tauto
  have hheads' : head' ∈ [a.partialList, a.fullList, a.emptyList] := by
    simp only [List.mem_cons, List.not_mem_nil, or_false] at hh' ⊢
    tauto
  obtain ⟨l1, l2, e1, e2, h2⟩ := h.rings.moveTail (Or.inl hheads) (Or.inl hheads') hne hx
    LIST_POISON1 LIST_POISON2
  refine ⟨l1, l2, e1, e2, h.relist h2 (fun slab' hs' => ?_) ?_⟩
  · have hfree := h.slabFree_ne ha hs'
    have hn : slabFree slab' ≠ head := fun hc => hfree (hc.symm ▸ hheads)
    have hn' : slabFree slab' ≠ head' := fun hc => hfree (hc.symm ▸ hheads')
    rw [Function.update_of_ne hn', Function.update_of_ne hn]
  · have n1 := ha.full_ne
    have n2 := ha.empty_ne
    have n3 := ha.empty_ne_full
    simp only [List.mem_cons, List.not_mem_nil, or_false] at hh hh'
    refine List.perm_iff_count.mpr fun y => ?_
    rcases hh with rfl | rfl <;> rcases hh' with rfl | rfl
    · exact absurd rfl hne
    · simp [hx, n1, n1.symm, n2, n2.symm, n3, n3.symm, Function.update_of_ne, List.count_cons]
      omega
    · simp [hx, n1, n1.symm, n2, n2.symm, n3, n3.symm, Function.update_of_ne, List.count_cons]
      omega
    · simp [hx, n1, n1.symm, n2, n2.symm, n3, n3.symm, Function.update_of_ne, List.count_cons]
      omega

end SlabInv

end Tomato
