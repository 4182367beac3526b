import Tomato.Mem.Alloc.BytesLayout

/-!
# The slabs in memory are those of the links

Each function of `mem/alloc.c` on the bytes does what it does on the links. `SlabBytes.Sim`
relates the two, and what else the function does to the bytes is said beside it.
-/

namespace Tomato

open Bytes Links

variable {d : DirectMap} {entries : Memmap} {ptr : ℕ} {m : MemAllocMeta} {st : Slabs}
  {S : SlabBytes} {live created : List ℕ} {lists : ℕ → List ℕ} {b b' : Bytes} {l : Links ℕ}
  {alloc inUse : ℕ → ℕ} {slab x y k n : ℕ}

/-- The fields of the slabs that are not lists. -/
structure Headers (b : Bytes) (created : List ℕ) (alloc inUse : ℕ → ℕ) : Prop where
  alloc : ∀ slab ∈ created, b.read (slabAlloc slab) 8 = alloc slab
  inUse : ∀ slab ∈ created, b.read (slabInUse slab) 2 = inUse slab

namespace Headers

theorem congr (h : Headers b created alloc inUse)
    (hb : ∀ slab ∈ created, ∀ y ∈ Set.Ico (slab + 32) (slab + 48), b' y = b y) :
    Headers b' created alloc inUse := by
  refine ⟨fun slab hs => ?_, fun slab hs => ?_⟩
  · rw [← h.alloc slab hs]
    refine read_congr fun y hy => hb slab hs y ?_
    simp only [slabAlloc, Set.mem_Ico] at hy ⊢
    omega
  · rw [← h.inUse slab hs]
    refine read_congr fun y hy => hb slab hs y ?_
    simp only [slabInUse, Set.mem_Ico] at hy ⊢
    omega

/-- A new counter. -/
theorem count (h : Headers b created alloc inUse) (hpage : ∀ s ∈ created, 4096 ∣ s)
    (hs : slab ∈ created) (hn : n < 2 ^ 16) :
    Headers (b.write (slabInUse slab) 2 n) created alloc (Function.update inUse slab n) := by
  refine ⟨fun s hs' => ?_, fun s hs' => ?_⟩
  · rw [← h.alloc s hs']
    refine read_write_of_le ?_
    simp only [slabAlloc, slabInUse]
    by_cases he : s = slab
    · omega
    · have := page_lt_or_lt (hpage s hs') (hpage slab hs) he
      omega
  · by_cases he : s = slab
    · subst he
      rw [Function.update_self]
      exact read_write (by norm_num; omega)
    · rw [Function.update_of_ne he, ← h.inUse s hs']
      refine read_write_of_le ?_
      have := page_lt_or_lt (hpage s hs') (hpage slab hs) he
      simp only [slabInUse]
      omega

end Headers

/-- The memory has the links, the counters and the owners of the slabs. -/
structure SlabBytes.Sim (d : DirectMap) (ptr : ℕ) (m : MemAllocMeta) (S : SlabBytes) (st : Slabs)
    (live : List ℕ) : Prop where
  mirror : Mirror (allEntries d ptr m) (usedEntries ptr m st.created live) S.bytes st.links
  headers : Headers S.bytes st.created st.alloc st.inUse
  virt : S.virt = st.virt
  created : S.created = st.created

/-- The bytes that an allocator may write when it has the slabs. -/
def touched (ptr : ℕ) (m : MemAllocMeta) (created live : List ℕ) : Set ℕ :=
  {e | e ∈ usedEntries ptr m created live ∨ ∃ slab ∈ created, e = slab + 32}

theorem usedEntries_subset_touched : usedEntries ptr m created live ⊆ touched ptr m created live :=
  fun _ he => Or.inl he

theorem mem_usedEntries_slab (hs : slab ∈ created) : slab ∈ usedEntries ptr m created live :=
  Or.inr ⟨slab, hs, Or.inl rfl⟩

theorem mem_usedEntries_slabFree (hs : slab ∈ created) :
    slabFree slab ∈ usedEntries ptr m created live := Or.inr ⟨slab, hs, Or.inr (Or.inl rfl)⟩

theorem mem_usedEntries_object (hs : slab ∈ created) (hx : x ∈ objects m slab) (hl : x ∉ live) :
    x ∈ usedEntries ptr m created live := Or.inr ⟨slab, hs, Or.inr (Or.inr ⟨hx, hl⟩)⟩

theorem same_count (hs : slab ∈ created) (b : Bytes) (n : ℕ) :
    b.Same (b.write (slabInUse slab) 2 n) (touched ptr m created live) := fun y hy => by
  refine write_of_notMem fun hc => hy (slab + 32) (Or.inr ⟨slab, hs, rfl⟩) ?_
  simp only [slabInUse, Set.mem_Ico] at hc ⊢
  omega

section Slab

variable (hp : AllocPlaced d ptr) (hm : m.Ok) (h : SlabInv d (memAllocAt ptr) m st live lists)

include hp hm h

/-- Writing to the lists leaves the other fields of the slabs. -/
theorem SlabInv.headers_same {E : Set ℕ} (hh : Headers b st.created alloc inUse)
    (hb : b.Same b' E) (hE : E ⊆ allEntries d ptr m) : Headers b' st.created alloc inUse :=
  hh.congr fun slab hs y hy => hb y fun e he => by
    obtain ⟨hdvd, hr⟩ := h.page slab hs
    exact header_notMem hp hm hdvd hr hy (hE he)

theorem SlabInv.mirror_count {E : Set ℕ} (hM : Mirror (allEntries d ptr m) E b l)
    (hs : slab ∈ st.created) (n : ℕ) :
    Mirror (allEntries d ptr m) E (b.write (slabInUse slab) 2 n) l :=
  hM.congr fun e he y hy => write_of_notMem fun hc => by
    obtain ⟨hdvd, hr⟩ := h.page slab hs
    refine header_notMem hp hm hdvd hr ?_ (hM.sub he) hy
    simp only [slabInUse, Set.mem_Ico] at hc ⊢
    omega

omit hp in
/-- The object is no other entry. -/
theorem SlabInv.object_ne (ho : AllocPlaced d ptr) (hs : slab ∈ st.created)
    (hx : x ∈ objects m slab) :
    x ∉ [ptr + 8, ptr + 24, ptr + 40] ∧ ∀ s ∈ st.created, x ≠ s ∧ x ≠ slabFree s := by
  obtain ⟨hdvd, hr⟩ := h.page slab hs
  refine ⟨fun hc => ho.ok.outside x hc (h.object_mem_range hm hs hx), fun s hs' => ?_⟩
  exact hm.not_header hdvd (h.page s hs').1 hx

theorem SlabInv.usedEntries_cons (hs : slab ∈ st.created) (hx : x ∈ objects m slab) :
    usedEntries ptr m st.created live \ {x} = usedEntries ptr m st.created (x :: live) := by
  obtain ⟨hhead, hne⟩ := h.object_ne hm hp hs hx
  ext e
  constructor
  · rintro ⟨he | ⟨s, hs', he | he | ⟨he, hl⟩⟩, hex⟩
    · exact Or.inl he
    · exact Or.inr ⟨s, hs', Or.inl he⟩
    · exact Or.inr ⟨s, hs', Or.inr (Or.inl he)⟩
    · exact Or.inr ⟨s, hs', Or.inr (Or.inr ⟨he, fun hc => (List.mem_cons.mp hc).elim hex hl⟩)⟩
  · rintro (he | ⟨s, hs', rfl | rfl | ⟨he, hl⟩⟩)
    · exact ⟨Or.inl he, fun hc => hhead (hc ▸ he)⟩
    · exact ⟨mem_usedEntries_slab hs', fun hc => (hne e hs').1 hc.symm⟩
    · exact ⟨mem_usedEntries_slabFree hs', fun hc => (hne s hs').2 hc.symm⟩
    · refine ⟨mem_usedEntries_object hs' he fun hc => hl (List.mem_cons_of_mem _ hc), ?_⟩
      rintro rfl
      exact hl List.mem_cons_self

omit hp hm in
theorem SlabInv.usedEntries_erase (hs : slab ∈ st.created) (hx : x ∈ objects m slab) :
    insert x (usedEntries ptr m st.created live) =
      usedEntries ptr m st.created (live.erase x) := by
  have hmem : ∀ e, e ∈ live.erase x ↔ e ≠ x ∧ e ∈ live := fun e => h.live_nodup.mem_erase_iff
  ext e
  constructor
  · rintro (rfl | he | ⟨s, hs', he | he | ⟨he, hl⟩⟩)
    · exact mem_usedEntries_object hs hx fun hc => ((hmem e).mp hc).1 rfl
    · exact Or.inl he
    · exact Or.inr ⟨s, hs', Or.inl he⟩
    · exact Or.inr ⟨s, hs', Or.inr (Or.inl he)⟩
    · exact mem_usedEntries_object hs' he fun hc => hl ((hmem e).mp hc).2
  · rintro (he | ⟨s, hs', he | he | ⟨he, hl⟩⟩)
    · exact Or.inr (Or.inl he)
    · exact Or.inr (Or.inr ⟨s, hs', Or.inl he⟩)
    · exact Or.inr (Or.inr ⟨s, hs', Or.inr (Or.inl he)⟩)
    · by_cases hex : e = x
      · exact Or.inl hex
      · exact Or.inr (mem_usedEntries_object hs' he fun hc => hl ((hmem e).mpr ⟨hex, hc⟩))

omit hm in
theorem SlabInv.head_ne (hs : slab ∈ st.created) {head : ℕ}
    (hh : head ∈ [ptr + 8, ptr + 24, ptr + 40]) : head ≠ slab := by
  rintro rfl
  exact hp.ok.outside head hh ((h.page head hs).2 (mem_pageCells (k := 0) (by omega)))

/-- Bytes of an object that is in no list are not written with the lists. -/
theorem SlabInv.object_same {E : Set ℕ} (hs : slab ∈ st.created) (hx : x ∈ objects m slab)
    (hk : k < m.objectStride) (hb : b.Same b' E)
    (hE : ∀ e ∈ E, e ∈ allEntries d ptr m ∧ (e ≠ x ∨ 16 ≤ k) ∨ ∃ s ∈ st.created, e = s + 32) :
    b' (x + k) = b (x + k) := by
  obtain ⟨hdvd, hr⟩ := h.page slab hs
  refine hb _ fun e he => ?_
  rcases hE e he with ⟨he, hne⟩ | ⟨s, hs', rfl⟩
  · exact object_notMem hp hm hdvd hr hx hk he hne
  · have hb := objects_end hm hx
    simp only [Set.mem_Ico]
    by_cases hss : s = slab
    · omega
    · have := page_lt_or_lt (h.page s hs').1 hdvd hss
      omega

/-- A free object leaves its list, and its link is wiped. -/
theorem SlabBytes.Sim.wipeObject (hs : S.Sim d ptr m st live) (hslab : slab ∈ st.created)
    (hx : x ∈ objects m slab) (hlive : x ∉ live) :
    ∃ l1 b1, st.links.listDel LIST_POISON1 LIST_POISON2 x = some l1 ∧
      S.bytes.listDel LIST_POISON1 LIST_POISON2 x = some b1 ∧
      Mirror (allEntries d ptr m) (usedEntries ptr m st.created (x :: live))
        ((b1.setNext x 0).setPrev x 0) ((l1.setNext x 0).setPrev x 0) ∧
      Headers ((b1.setNext x 0).setPrev x 0) st.created st.alloc st.inUse ∧
      S.bytes.Same ((b1.setNext x 0).setPrev x 0) (usedEntries ptr m st.created live) ∧
      ∀ k < 16, ((b1.setNext x 0).setPrev x 0) (x + k) = 0 := by
  have hxE : x ∈ usedEntries ptr m st.created live := mem_usedEntries_object hslab hx hlive
  have hxA := h.usedEntries_subset hxE
  obtain ⟨l1, b1, e1, e1', M1, s1⟩ := hs.mirror.listDel (p := LIST_POISON1) (q := LIST_POISON2)
    hxE (by decide) (by decide)
  rw [h.usedEntries_cons hp hm hslab hx] at M1
  have hxn : x ∉ usedEntries ptr m st.created (x :: live) := by
    rw [← h.usedEntries_cons hp hm hslab hx]
    exact fun hc => hc.2 rfl
  obtain ⟨M2, s2⟩ := M1.wipe hxn hxA
  have hd1 := h.headers_same hp hm hs.headers s1 h.usedEntries_subset
  refine ⟨l1, b1, e1, e1', M2, h.headers_same hp hm hd1 s2 (Set.singleton_subset_iff.mpr hxA),
    s1.trans (s2.mono (Set.singleton_subset_iff.mpr hxE)), fun k hk => ?_⟩
  by_cases hk8 : k < 8
  · change (b1.setNext x 0).write (x + 8) 8 0 (x + k) = 0
    rw [write_of_notMem (by simp only [Set.mem_Ico]; omega)]
    exact write_zero (by simp only [Set.mem_Ico]; omega)
  · exact write_zero (by simp only [Set.mem_Ico]; omega)

/-- The second part of `mem_alloc`: the object is clear where its link was. -/
theorem SlabBytes.Sim.takeObject (hs : S.Sim d ptr m st live) (hslab : slab ∈ st.created)
    (hlt : st.inUse slab < m.objectsPerSlab) :
    ∃ x st' S', st.takeObject (memAllocAt ptr) m slab = some (x, st') ∧
      S.takeObject (memAllocAt ptr) m slab = some (x, S') ∧ S'.Sim d ptr m st' (x :: live) ∧
      S.bytes.Same S'.bytes (touched ptr m st.created live) ∧ ∀ k < 16, S'.bytes (x + k) = 0 := by
  have hh := slabFree_mem_listHeads (a := memAllocAt ptr) hslab
  obtain ⟨x, rest, hx⟩ := h.exists_free hslab hlt
  obtain ⟨hobj, hlive⟩ := (h.free slab hslab x).mp (hx ▸ List.mem_cons_self)
  have hempty : st.links.listEmpty (slabFree slab) = false := by
    rw [Bool.eq_false_iff, Ne, h.rings.listEmpty_iff hh, hx]
    simp
  have hnext : st.links.next (slabFree slab) = x := h.rings.next_head hh hx
  have hempty' : S.bytes.links.listEmpty (slabFree slab) = false :=
    (hs.mirror.listEmpty (mem_usedEntries_slabFree hslab)).trans hempty
  have hnext' : S.bytes.links.next (slabFree slab) = x :=
    (hs.mirror.next (mem_usedEntries_slabFree hslab)).trans hnext
  -- the object leaves the free list and is wiped
  obtain ⟨l1, b1, e1, e1', M2, hd2, s2, hwiped⟩ := hs.wipeObject hp hm h hslab hobj hlive
  obtain ⟨b2, hb2⟩ : ∃ b2, b2 = (b1.setNext x 0).setPrev x 0 := ⟨_, rfl⟩
  rw [← hb2] at M2 s2 hd2 hwiped
  -- the counter
  have hlt16 : st.inUse slab + 1 < 2 ^ 16 := by
    have := hm.objects_le
    rw [UINT16_MAX] at this
    omega
  have hmod : (st.inUse slab + 1) % 2 ^ 16 = st.inUse slab + 1 := Nat.mod_eq_of_lt hlt16
  have hread : b2.read (slabInUse slab) 2 = st.inUse slab := hd2.inUse slab hslab
  have M3 := h.mirror_count hp hm M2 hslab (st.inUse slab + 1)
  have hd3 := hd2.count (fun s hs' => (h.page s hs').1) hslab hlt16
  obtain ⟨b3, hb3⟩ : ∃ b3, b3 = b2.write (slabInUse slab) 2 (st.inUse slab + 1) := ⟨_, rfl⟩
  rw [← hb3] at M3 hd3
  have hzero3 : ∀ k < 16, b3 (x + k) = 0 := by
    intro k hk
    have := hm.bounds hobj
    rw [hb3, write_of_notMem (by simp only [slabInUse, Set.mem_Ico]; omega), hwiped k hk]
  have hsame : S.bytes.Same b3 (touched ptr m st.created live) :=
    (s2.mono usedEntries_subset_touched).trans (hb3 ▸ same_count hslab b2 _)
  by_cases hfull : st.inUse slab + 1 = m.objectsPerSlab
  · obtain ⟨l4, l5, b4, b5, e4, e5, e4', e5', M5, s5⟩ := M3.move (p := LIST_POISON1)
      (q := LIST_POISON2) (e := ptr + 24) (mem_usedEntries_slab hslab) (Or.inl (by simp))
      (h.head_ne hp hslab (by simp)) (by decide) (by decide)
    have hd5 := h.headers_same hp hm hd3 s5 M3.sub
    have hxn : ∀ e ∈ usedEntries ptr m st.created (x :: live), e ≠ x := by
      rw [← h.usedEntries_cons hp hm hslab hobj]
      exact fun e he => he.2
    refine ⟨x, { st with
        links := l5
        inUse := Function.update st.inUse slab (st.inUse slab + 1) },
      { S with bytes := b5 }, ?_, ?_, ⟨M5, hd5, hs.virt, hs.created⟩, ?_, fun k hk => ?_⟩
    · simp only [Slabs.takeObject, hempty, hnext, e1, hmod, if_pos hfull, e4, e5,
        Bool.false_eq_true, if_false, Option.bind_eq_bind, Option.bind_some, memAllocAt]
    · simp only [SlabBytes.takeObject, hempty', hnext', e1', ← hb2, hread, hmod, ← hb3,
        if_pos hfull, e4', e5', Bool.false_eq_true, if_false, Option.bind_eq_bind,
        Option.bind_some, memAllocAt]
    · refine hsame.trans (s5.mono ?_)
      rw [← h.usedEntries_cons hp hm hslab hobj]
      exact fun e he => Or.inl he.1
    · have hstride := hm.stride_ge
      change b5 (x + k) = 0
      rw [← hzero3 k hk]
      exact h.object_same hp hm hslab hobj (by omega) s5 fun e he =>
        Or.inl ⟨M3.sub he, Or.inl (hxn e he)⟩
  · refine ⟨x, { st with
        links := (l1.setNext x 0).setPrev x 0
        inUse := Function.update st.inUse slab (st.inUse slab + 1) },
      { S with bytes := b3 }, ?_, ?_, ⟨M3, hd3, hs.virt, hs.created⟩, hsame, hzero3⟩
    · simp only [Slabs.takeObject, hempty, hnext, e1, hmod, hfull, Bool.false_eq_true, if_false,
        Option.bind_eq_bind, Option.bind_some]
    · simp only [SlabBytes.takeObject, hempty', hnext', e1', ← hb2, hread, hmod, ← hb3, hfull,
        Bool.false_eq_true, if_false, Option.bind_eq_bind, Option.bind_some]

theorem SlabInv.live_notMem_used (hx : x ∈ live) : x ∉ usedEntries ptr m st.created live := by
  rw [← h.usedEntries_eq]
  rintro ⟨h', hh, hc⟩
  exact h.live_notMem hp.ok hm hx h' hh hc

/-- The object is cleared when it comes back. -/
theorem SlabInv.mirror_memset {E : Set ℕ} (hM : Mirror (allEntries d ptr m) E b l)
    (hs : slab ∈ st.created) (hx : x ∈ objects m slab) (hE : x ∉ E) :
    Mirror (allEntries d ptr m) E (memset 0 x m.objectSize b) l :=
  hM.congr fun e he y hy => by
    rw [memset_apply, if_neg]
    rintro ⟨h1, h2⟩
    obtain ⟨hdvd, hr⟩ := h.page slab hs
    have hsize := hm.size_le
    refine object_notMem hp hm hdvd hr hx (k := y - x) (by omega) (hM.sub he)
      (Or.inl fun hc => hE (hc ▸ he)) ?_
    rwa [Nat.add_sub_cancel' h1]

omit hp in
theorem SlabInv.headers_memset (hh : Headers b st.created alloc inUse) (hs : slab ∈ st.created)
    (hx : x ∈ objects m slab) :
    Headers (memset 0 x m.objectSize b) st.created alloc inUse :=
  hh.congr fun s hs' y hy => by
    have hb := objects_end hm hx
    have hsize := hm.size_le
    simp only [Set.mem_Ico] at hy
    rw [memset_apply, if_neg]
    by_cases hss : s = slab
    · omega
    · have := page_lt_or_lt (h.page s hs').1 (h.page slab hs).1 hss
      omega

/-- The object comes back: it is cleared and becomes the last one of its list. -/
theorem SlabBytes.Sim.putObject (hs : S.Sim d ptr m st live) (hslab : slab ∈ st.created)
    (hobj : x ∈ objects m slab) (hx : x ∈ live) :
    ∃ l2 b2, ((st.links.setNext x 0).setPrev x 0).listAddTail (slabFree slab) x = some l2 ∧
      (memset 0 x m.objectSize S.bytes).listAddTail (slabFree slab) x = some b2 ∧
      Mirror (allEntries d ptr m) (usedEntries ptr m st.created (live.erase x)) b2 l2 ∧
      Headers b2 st.created st.alloc st.inUse ∧
      (memset 0 x m.objectSize S.bytes).Same b2
        (usedEntries ptr m st.created (live.erase x)) := by
  obtain ⟨hdvd, hr⟩ := h.page slab hslab
  have hxA : x ∈ allEntries d ptr m := Or.inr ⟨slab, hdvd, hr, Or.inr (Or.inr hobj)⟩
  have hxn := h.live_notMem_used hp hm hx
  have hne : ∀ e ∈ usedEntries ptr m st.created live, e ≠ x := fun e he hc => hxn (hc ▸ he)
  have M1 : Mirror (allEntries d ptr m) (usedEntries ptr m st.created live)
      (memset 0 x m.objectSize S.bytes) ((st.links.setNext x 0).setPrev x 0) :=
    (h.mirror_memset hp hm hs.mirror hslab hobj hxn).congr_links
      (fun e he => by simp [hne e he]) fun e he => by simp [hne e he]
  have hd1 := h.headers_memset hm hs.headers hslab hobj
  obtain ⟨l2, b2, e2, e2', M2, s2⟩ := M1.listAddTail (mem_usedEntries_slabFree hslab) hxn hxA
  have hd2 := h.headers_same hp hm hd1 s2 M2.sub
  rw [h.usedEntries_erase hslab hobj] at M2 s2
  exact ⟨l2, b2, e2, e2', M2, hd2, s2⟩

/-- `mem_free` clears the object, and writes to the lists and to the counter. -/
theorem SlabBytes.Sim.memFree (hs : S.Sim d ptr m st live) (hx : x ∈ live) :
    ∃ st' S', st.memFree (memAllocAt ptr) m x = some st' ∧
      S.memFree (memAllocAt ptr) m x = some S' ∧ S'.Sim d ptr m st' (live.erase x) ∧
      (memset 0 x m.objectSize S.bytes).Same S'.bytes
        (touched ptr m st.created (live.erase x)) := by
  obtain ⟨slab, hslab, hobj⟩ := h.live_mem x hx
  have hx0 : x ≠ 0 := by
    have := hm.bounds hobj
    omega
  have hto := hm.objectToSlab (h.page slab hslab).1 hobj
  obtain ⟨-, -, huse, -⟩ := h.put hp.ok hm hslab hobj hx
  have howner : S.bytes.read (slabAlloc slab) 8 = ptr :=
    (hs.headers.alloc slab hslab).trans (h.owner slab hslab)
  obtain ⟨l2, b2, e2, e2', M2, hd2, s2⟩ := hs.putObject hp hm h hslab hobj hx
  -- the counter
  have hread : b2.read (slabInUse slab) 2 = st.inUse slab := hd2.inUse slab hslab
  have hlt16 : st.inUse slab - 1 < 2 ^ 16 := by
    have h1 := h.inUse_le hslab
    have h2 := hm.objects_le
    rw [UINT16_MAX] at h2
    omega
  have M3 := h.mirror_count hp hm M2 hslab (st.inUse slab - 1)
  have hd3 := hd2.count (fun s hs' => (h.page s hs').1) hslab hlt16
  obtain ⟨b3, hb3⟩ : ∃ b3, b3 = b2.write (slabInUse slab) 2 (st.inUse slab - 1) := ⟨_, rfl⟩
  rw [← hb3] at M3 hd3
  have hsame : (memset 0 x m.objectSize S.bytes).Same b3
      (touched ptr m st.created (live.erase x)) :=
    (s2.mono usedEntries_subset_touched).trans (hb3 ▸ same_count hslab b2 _)
  have hmove : ∀ head ∈ [ptr + 8, ptr + 24, ptr + 40], ∃ l4 l5 b4 b5,
      l2.listDel LIST_POISON1 LIST_POISON2 slab = some l4 ∧ l4.listAddTail head slab = some l5 ∧
      b3.listDel LIST_POISON1 LIST_POISON2 slab = some b4 ∧ b4.listAddTail head slab = some b5 ∧
      Mirror (allEntries d ptr m) (usedEntries ptr m st.created (live.erase x)) b5 l5 ∧
      b3.Same b5 (usedEntries ptr m st.created (live.erase x)) := fun head hh =>
    M3.moveTail (mem_usedEntries_slab hslab) (Or.inl hh) (h.head_ne hp hslab hh) (by decide)
      (by decide)
  by_cases hlast : st.inUse slab - 1 = 0
  · obtain ⟨l4, l5, b4, b5, e4, e5, e4', e5', M5, s5⟩ := hmove (ptr + 40) (by simp)
    have hd5 := h.headers_same hp hm hd3 s5 M3.sub
    refine ⟨{ st with
        links := l5
        inUse := Function.update st.inUse slab (st.inUse slab - 1) }, { S with bytes := b5 }, ?_,
      ?_, ⟨M5, hd5, hs.virt, hs.created⟩, hsame.trans (s5.mono usedEntries_subset_touched)⟩
    · simp only [Slabs.memFree, hx0, hto, h.owner slab hslab, e2, huse.ne', hlast, e4, e5,
        memAllocAt, ne_eq, not_true_eq_false, if_true, if_false, Option.bind_eq_bind,
        Option.bind_some]
    · rw [hlast] at hb3
      simp only [SlabBytes.memFree, hx0, hto, howner, e2', hread, huse.ne', hlast, ← hb3, e4',
        e5', memAllocAt, ne_eq, not_true_eq_false, if_true, if_false, Option.bind_eq_bind,
        Option.bind_some]
  by_cases hwas : st.inUse slab = m.objectsPerSlab
  · obtain ⟨l4, l5, b4, b5, e4, e5, e4', e5', M5, s5⟩ := hmove (ptr + 8) (by simp)
    have hd5 := h.headers_same hp hm hd3 s5 M3.sub
    have hlast' : m.objectsPerSlab - 1 ≠ 0 := hwas ▸ hlast
    have hpos : m.objectsPerSlab ≠ 0 := by omega
    refine ⟨{ st with
        links := l5
        inUse := Function.update st.inUse slab (st.inUse slab - 1) }, { S with bytes := b5 }, ?_,
      ?_, ⟨M5, hd5, hs.virt, hs.created⟩, hsame.trans (s5.mono usedEntries_subset_touched)⟩
    · simp only [Slabs.memFree, hx0, hto, h.owner slab hslab, e2, hwas, hlast', hpos, e4, e5,
        memAllocAt, ne_eq, not_true_eq_false, if_true, if_false, Option.bind_eq_bind,
        Option.bind_some]
    · rw [hwas] at hb3
      simp only [SlabBytes.memFree, hx0, hto, howner, e2', hread, hwas, hlast', hpos, ← hb3, e4',
        e5', memAllocAt, ne_eq, not_true_eq_false, if_true, if_false, Option.bind_eq_bind,
        Option.bind_some]
  · refine ⟨{ st with
        links := l2
        inUse := Function.update st.inUse slab (st.inUse slab - 1) }, { S with bytes := b3 }, ?_,
      ?_, ⟨M3, hd3, hs.virt, hs.created⟩, hsame⟩
    · simp only [Slabs.memFree, hx0, hto, h.owner slab hslab, e2, huse.ne', hlast, hwas, ne_eq,
        not_true_eq_false, if_false, Option.bind_eq_bind, Option.bind_some]
    · simp only [SlabBytes.memFree, hx0, hto, howner, e2', hread, huse.ne', hlast, hwas, ← hb3,
        memAllocAt, ne_eq, not_true_eq_false, if_false, Option.bind_eq_bind, Option.bind_some]

end Slab

end Tomato
