import Tomato.Mem.Alloc.SimulationCreate

/-!
# The calls of the slab allocator in memory

Between two calls the free objects are clear behind their links, and what is behind an object
is filled. So the object that `mem_alloc` returns is clear, and neither call changes a live
object.
-/

namespace Tomato

open Blocks Bytes Links

variable {d : DirectMap} {entries : Memmap} {ptr : ℕ} {m : MemAllocMeta} {st : Slabs}
  {S : SlabBytes} {live created : List ℕ} {lists : ℕ → List ℕ} {b b' : Bytes} {l : Links ℕ}
  {vs vs' : VirtState} {alloc inUse : ℕ → ℕ} {slab x y k n : ℕ}

/-- The free objects are clear behind their links, and the bytes between objects are filled. -/
structure Clean (m : MemAllocMeta) (b : Bytes) (created live : List ℕ) : Prop where
  zero : ∀ s ∈ created, ∀ x ∈ objects m s, x ∉ live → ∀ k, 16 ≤ k → k < m.objectSize →
    b (x + k) = 0
  filler : ∀ s ∈ created, ∀ x ∈ objects m s, ∀ k, m.objectSize ≤ k → k < m.objectStride →
    b (x + k) = 0xBB

/-- The live objects have the bytes that they had before. -/
def Kept (m : MemAllocMeta) (b b' : Bytes) (live : List ℕ) : Prop :=
  ∀ x ∈ live, ∀ k < m.objectStride, b' (x + k) = b (x + k)

theorem Clean.congr (hsize : 16 ≤ m.objectSize) (hle : m.objectSize ≤ m.objectStride)
    (h : Clean m b created live) (hb : ∀ s ∈ created, ∀ x ∈ objects m s, ∀ k, 16 ≤ k →
      k < m.objectStride → b' (x + k) = b (x + k)) : Clean m b' created live := by
  refine ⟨fun s hs x hx hl k h1 h2 => ?_, fun s hs x hx k h1 h2 => ?_⟩
  · rw [hb s hs x hx k h1 (by omega), h.zero s hs x hx hl k h1 h2]
  · rw [hb s hs x hx k (by omega) h2, h.filler s hs x hx k h1 h2]

section Call

variable (hp : AllocPlaced d ptr) (hm : m.Ok) (hsize : 16 ≤ m.objectSize)
  (h : SlabInv d (memAllocAt ptr) m st live lists)

include hp hm h

theorem SlabInv.touched_same (hb : b.Same b' (touched ptr m st.created live))
    (hs : slab ∈ st.created) (hx : x ∈ objects m slab) (hk : k < m.objectStride)
    (hor : x ∈ live ∨ 16 ≤ k) : b' (x + k) = b (x + k) := by
  refine h.object_same hp hm hs hx hk hb fun e he => he.imp_left fun he => ?_
  refine ⟨h.usedEntries_subset he, hor.imp_left fun hl => ?_⟩
  rintro rfl
  exact h.live_notMem_used hp hm hl he

theorem SlabInv.kept_same (hb : b.Same b' (touched ptr m st.created live)) : Kept m b b' live :=
  fun x hx k hk => by
    obtain ⟨s, hs, hobj⟩ := h.live_mem x hx
    exact h.touched_same hp hm hb hs hobj hk (Or.inl hx)

include hsize

theorem SlabInv.clean_same (hc : Clean m b st.created live)
    (hb : b.Same b' (touched ptr m st.created live)) : Clean m b' st.created live :=
  hc.congr hsize hm.size_le fun _ hs _ hx _ hk hk' =>
    h.touched_same hp hm hb hs hx hk' (Or.inr hk)

omit hp hsize in
/-- The objects of a page that is not a slab are not live. -/
theorem SlabInv.fresh_notMem (hf : Fresh d st slab) (hx : x ∈ objects m slab) : x ∉ live := by
  intro hl
  obtain ⟨s, hs, hxs⟩ := h.live_mem x hl
  exact hf.new (hm.eq_of_mem (h.page s hs).1 hf.dvd hxs hx ▸ hs)

omit hp hsize in
/-- The entries of the lists with a new slab. -/
theorem SlabInv.usedEntries_created (hf : Fresh d st slab) :
    insert slab (firstObjects m slab m.objectsPerSlab ∪
      insert (slabFree slab) (usedEntries ptr m st.created live)) =
        usedEntries ptr m (slab :: st.created) live := by
  ext e
  constructor
  · rintro (rfl | he | rfl | he | ⟨s, hs', he⟩)
    · exact Or.inr ⟨e, List.mem_cons_self, Or.inl rfl⟩
    · have he := mem_firstObjects.mp he
      have hl := h.fresh_notMem hm hf he
      exact Or.inr ⟨slab, List.mem_cons_self, Or.inr (Or.inr ⟨he, hl⟩)⟩
    · exact Or.inr ⟨slab, List.mem_cons_self, Or.inr (Or.inl rfl)⟩
    · exact Or.inl he
    · exact Or.inr ⟨s, List.mem_cons_of_mem _ hs', he⟩
  · rintro (he | ⟨s, hs', he⟩)
    · exact Or.inr (Or.inr (Or.inr (Or.inl he)))
    · rcases List.mem_cons.mp hs' with rfl | hs'
      · rcases he with rfl | rfl | he
        · exact Or.inl rfl
        · exact Or.inr (Or.inr (Or.inl rfl))
        · exact Or.inr (Or.inl (mem_firstObjects.mpr he.1))
      · exact Or.inr (Or.inr (Or.inr (Or.inr ⟨s, hs', he⟩)))

omit hsize in
/-- The other slabs are as they were, but for the links of their free objects. -/
theorem SlabInv.created_same (hf : Fresh d st slab) {l1 : Links ℕ} {b1 b2 : Bytes}
    (hb : CreatedBytes d ptr m slab (usedEntries ptr m st.created live) b b1 l1)
    (hsame : b1.Same b2 (usedEntries ptr m (slab :: st.created) live))
    (hsub : usedEntries ptr m (slab :: st.created) live ⊆ allEntries d ptr m) {s : ℕ}
    (hs : s ∈ st.created) (hx : x ∈ objects m s) (hk : k < m.objectStride)
    (hor : x ∈ live ∨ 16 ≤ k) : b2 (x + k) = b (x + k) := by
  obtain ⟨hdvd, hr⟩ := h.page s hs
  have hend := objects_end hm hx
  have hdvd' : ∀ s' ∈ slab :: st.created, 4096 ∣ s' := by
    intro s' hs'
    rcases List.mem_cons.mp hs' with rfl | hs'
    · exact hf.dvd
    · exact (h.page s' hs').1
  have hne : ∀ e ∈ usedEntries ptr m (slab :: st.created) live, e ≠ x ∨ 16 ≤ k := by
    intro e he
    refine hor.imp_left fun hl => ?_
    rintro rfl
    rcases he with he | ⟨s', hs', rfl | rfl | he⟩
    · exact hp.ok.outside e he (h.object_mem_range hm hs hx)
    · exact (hm.not_header hdvd (hdvd' e hs') hx).1 rfl
    · exact (hm.not_header hdvd (hdvd' s' hs') hx).2 rfl
    · exact he.2 hl
  have hmono : usedEntries ptr m st.created live ⊆ usedEntries ptr m (slab :: st.created) live :=
    fun e he => he.imp_right fun ⟨s', hs', he⟩ => ⟨s', List.mem_cons_of_mem _ hs', he⟩
  rw [hsame _ fun e he => object_notMem hp hm hdvd hr hx hk (hsub he) (hne e he)]
  refine hb.outside _ ?_ fun e he =>
    object_notMem hp hm hdvd hr hx hk (hsub (hmono he)) (hne e (hmono he))
  have hss : s ≠ slab := by
    rintro rfl
    exact hf.new hs
  have := page_lt_or_lt hdvd hf.dvd hss
  simp only [pageCells, Set.mem_Ico]
  omega

omit hsize in
/-- The fields of the slabs, with those of a new one. -/
theorem SlabInv.created_headers (hf : Fresh d st slab) {l1 : Links ℕ} {b1 : Bytes}
    (hb : CreatedBytes d ptr m slab (usedEntries ptr m st.created live) b b1 l1)
    (hH : Headers b st.created alloc inUse) :
    Headers b1 (slab :: st.created) (Function.update alloc slab ptr)
      (Function.update inUse slab 0) := by
  have hne : ∀ s ∈ st.created, s ≠ slab := by
    rintro s hs rfl
    exact hf.new hs
  have hold : Headers b1 st.created alloc inUse := hH.congr fun s hs y hy => by
    obtain ⟨hdvd, hr⟩ := h.page s hs
    refine hb.outside y ?_ fun e he => header_notMem hp hm hdvd hr hy (h.usedEntries_subset he)
    have := page_lt_or_lt hdvd hf.dvd (hne s hs)
    simp only [pageCells, Set.mem_Ico] at hy ⊢
    omega
  refine ⟨fun s hs => ?_, fun s hs => ?_⟩
  · rcases List.mem_cons.mp hs with rfl | hs
    · rw [Function.update_self, hb.owner]
    · rw [Function.update_of_ne (hne s hs), hold.alloc s hs]
  · rcases List.mem_cons.mp hs with rfl | hs
    · rw [Function.update_self, hb.count]
    · rw [Function.update_of_ne (hne s hs), hold.inUse s hs]

/-- The page of a new slab, linked into the partial list. -/
theorem SlabBytes.Sim.linkSlab (hs : S.Sim d ptr m st live) (hc : Clean m S.bytes st.created live)
    (hf : Fresh d st slab) {l1 : Links ℕ} {b1 : Bytes}
    (hb : CreatedBytes d ptr m slab (usedEntries ptr m st.created live) S.bytes b1 l1) :
    ∃ l2 b2, l1.listAdd (ptr + 8) slab = some l2 ∧ b1.listAdd (ptr + 8) slab = some b2 ∧
      Mirror (allEntries d ptr m) (usedEntries ptr m (slab :: st.created) live) b2 l2 ∧
      Headers b2 (slab :: st.created) (Function.update st.alloc slab ptr)
        (Function.update st.inUse slab 0) ∧
      Clean m b2 (slab :: st.created) live ∧ Kept m S.bytes b2 live := by
  have hslabA : slab ∈ allEntries d ptr m := Or.inr ⟨slab, hf.dvd, hf.range, Or.inl rfl⟩
  have hnew : slab ∉ firstObjects m slab m.objectsPerSlab ∪
      insert (slabFree slab) (usedEntries ptr m st.created live) := by
    rintro (hc | hc | hc)
    · exact (hm.not_header hf.dvd hf.dvd (mem_firstObjects.mp hc)).1 rfl
    · exact slab_ne_slabFree hf.dvd hf.dvd hc
    · exact h.used_notMem_page hp hm hf hc (mem_pageCells (k := 0) (by omega)) (by simp)
  obtain ⟨l2, b2, e2, e2', M2, s2⟩ := hb.mirror.listAdd (e := ptr + 8)
    (Or.inr (Or.inr (Or.inl (by simp)))) hnew hslabA
  rw [h.usedEntries_created hm hf] at M2 s2
  have hpage : ∀ s ∈ slab :: st.created, 4096 ∣ s ∧ pageCells s ⊆ d.range := by
    intro s hs
    rcases List.mem_cons.mp hs with rfl | hs
    · exact ⟨hf.dvd, hf.range⟩
    · exact h.page s hs
  have hH := (h.created_headers hp hm hf hb hs.headers).congr fun s hs' y hy =>
    s2 y fun e he => header_notMem hp hm (hpage s hs').1 (hpage s hs').2 hy (M2.sub he)
  -- the objects of the new slab, and those of the others
  have hnewObj : ∀ x ∈ objects m slab, ∀ k < m.objectStride, 16 ≤ k →
      b2 (x + k) = b1 (x + k) := fun x hx k hk hk' =>
    s2 _ fun e he => object_notMem hp hm hf.dvd hf.range hx hk (M2.sub he) (Or.inr hk')
  have hother : ∀ s ∈ st.created, ∀ x ∈ objects m s, ∀ k < m.objectStride,
      (x ∈ live ∨ 16 ≤ k) → b2 (x + k) = S.bytes (x + k) := fun s hs' x hx k hk hor =>
    h.created_same hp hm hf hb s2 M2.sub hs' hx hk hor
  have hle := hm.size_le
  refine ⟨l2, b2, e2, e2', M2, hH, ⟨?_, ?_⟩, fun x hx k hk => ?_⟩
  · intro s hs' x hx hl k h1 h2
    rcases List.mem_cons.mp hs' with rfl | hs'
    · rw [hnewObj x hx k (by omega) h1, hb.clear x hx k h1 h2]
    · rw [hother s hs' x hx k (by omega) (Or.inr h1), hc.zero s hs' x hx hl k h1 h2]
  · intro s hs' x hx k h1 h2
    rcases List.mem_cons.mp hs' with rfl | hs'
    · rw [hnewObj x hx k h2 (by omega), hb.filled x (mem_firstObjects.mpr hx) k h1 h2]
    · rw [hother s hs' x hx k h2 (Or.inr (by omega)), hc.filler s hs' x hx k h1 h2]
  · obtain ⟨s, hs', hobj⟩ := h.live_mem x hx
    exact hother s hs' x hobj k hk (Or.inl hx)

/-- A slab without live objects goes to the partial list. -/
theorem SlabBytes.Sim.moveSlab (hs : S.Sim d ptr m st live)
    (hc : Clean m S.bytes st.created live) (hslab : slab ∈ st.created) :
    ∃ l1 l2 b1 b2, st.links.listDel LIST_POISON1 LIST_POISON2 slab = some l1 ∧
      l1.listAdd (ptr + 8) slab = some l2 ∧
      S.bytes.listDel LIST_POISON1 LIST_POISON2 slab = some b1 ∧
      b1.listAdd (ptr + 8) slab = some b2 ∧
      SlabBytes.Sim d ptr m { S with bytes := b2 } { st with links := l2 } live ∧
      Clean m b2 st.created live ∧ Kept m S.bytes b2 live := by
  obtain ⟨l1, l2, b1, b2, e1, e2, e1', e2', M2, s2⟩ := hs.mirror.move (p := LIST_POISON1)
    (q := LIST_POISON2) (e := ptr + 8) (mem_usedEntries_slab hslab) (Or.inl (by simp))
    (h.head_ne hp hslab (by simp)) (by decide) (by decide)
  have hd2 := h.headers_same hp hm hs.headers s2 hs.mirror.sub
  have hsame := s2.mono usedEntries_subset_touched
  exact ⟨l1, l2, b1, b2, e1, e2, e1', e2', ⟨M2, hd2, hs.virt, hs.created⟩,
    h.clean_same hp hm hsize hc hsame, h.kept_same hp hm hsame⟩

/-- A new slab, whose page the physical allocator has. -/
theorem SlabBytes.Sim.createSlab (hs : S.Sim d ptr m st live)
    (hc : Clean m S.bytes st.created live) (hf : Fresh d st slab)
    (e : st.virt.physAlloc d PAGE_SIZE = some (some slab, vs))
    (he : vs.exec d entries (.makeGlobal slab 1) = some vs')
    (hclear : ∀ y ∈ pageCells slab, vs'.phys.mem y = 0) :
    ∃ st1 l2 S1 b2, st.slabCreate d entries (memAllocAt ptr) m = some (some slab, st1) ∧
      st1.links.listAdd (ptr + 8) slab = some l2 ∧
      S.slabCreate d entries (memAllocAt ptr) m = some (some slab, S1) ∧
      S1.bytes.listAdd (ptr + 8) slab = some b2 ∧
      SlabBytes.Sim d ptr m { S1 with bytes := b2 } { st1 with links := l2 } live ∧
      Clean m b2 st1.created live ∧ Kept m S.bytes b2 live := by
  have ha : (memAllocAt ptr).ptr = ptr := rfl
  have huse : vs'.phys.mem (slabInUse slab) % 2 ^ 16 = 0 := by
    rw [hclear (slabInUse slab) (mem_pageCells (k := 40) (by omega)), Nat.zero_mod]
  obtain ⟨l1, b1, e1, e1', hb1⟩ := createBytes hp hm hsize hf.dvd hf.range hclear hs.mirror
    fun e he y hy => h.used_notMem_page hp hm hf he hy
  obtain ⟨l2, b2, e2, e2', M2, H2, C2, K2⟩ := hs.linkSlab hp hm hsize h hc hf hb1
  refine ⟨⟨l1, Function.update st.alloc slab ptr, Function.update st.inUse slab 0, vs',
    slab :: st.created⟩, l2, ⟨b1, vs', slab :: S.created⟩, b2, ?_, e2, ?_, e2',
    ⟨M2, H2, rfl, by simp [hs.created]⟩, C2, K2⟩
  · simp only [Slabs.slabCreate, e, he, e1, huse, ha, Option.bind_eq_bind, Option.bind_some]
  · simp only [SlabBytes.slabCreate, hs.virt, e, he, ha, e1', Option.bind_eq_bind,
      Option.bind_some]

/-- The choice of a slab. -/
theorem SlabBytes.Sim.chooseSlab (hs : S.Sim d ptr m st live)
    (hc : Clean m S.bytes st.created live) (hpg : SlabPages d entries st) :
    (st.chooseSlab d entries (memAllocAt ptr) m = some (none, st) ∧
      S.chooseSlab d entries (memAllocAt ptr) m = some (none, S)) ∨
    (st.chooseSlab d entries (memAllocAt ptr) m = none ∧
      S.chooseSlab d entries (memAllocAt ptr) m = none) ∨
    ∃ slab st1 S1, st.chooseSlab d entries (memAllocAt ptr) m = some (some slab, st1) ∧
      S.chooseSlab d entries (memAllocAt ptr) m = some (some slab, S1) ∧
      S1.Sim d ptr m st1 live ∧ Clean m S1.bytes st1.created live ∧
      Kept m S.bytes S1.bytes live := by
  have hpE : (memAllocAt ptr).partialList ∈ usedEntries ptr m st.created live := Or.inl (by
    simp [memAllocAt])
  have heE : (memAllocAt ptr).emptyList ∈ usedEntries ptr m st.created live := Or.inl (by
    simp [memAllocAt])
  have hp8 : (memAllocAt ptr).partialList = ptr + 8 := rfl
  have hpe := hs.mirror.listEmpty hpE
  have hee := hs.mirror.listEmpty heE
  have hpl := h.rings.listEmpty_iff (partial_mem_listHeads (memAllocAt ptr) st.created)
  have hel := h.rings.listEmpty_iff (empty_mem_listHeads (memAllocAt ptr) st.created)
  cases hpn : st.links.listEmpty (memAllocAt ptr).partialList with
  | false =>
    rw [hpn] at hpe
    refine Or.inr (Or.inr ⟨st.links.next (memAllocAt ptr).partialList, st, S, ?_, ?_, hs, hc,
      fun x _ k _ => rfl⟩)
    · simp only [Slabs.chooseSlab, hpn, Bool.not_false, if_true]
    · simp only [SlabBytes.chooseSlab, hpe, Bool.not_false, if_true, hs.mirror.next hpE]
  | true =>
    rw [hpn] at hpe
    cases hen : st.links.listEmpty (memAllocAt ptr).emptyList with
    | false =>
      rw [hen] at hee
      obtain ⟨slab, es, hlist⟩ : ∃ slab es, lists (memAllocAt ptr).emptyList = slab :: es := by
        cases hl : lists (memAllocAt ptr).emptyList with
        | nil => simp [hel.mpr hl] at hen
        | cons slab es => exact ⟨slab, es, rfl⟩
      have hnext := h.rings.next_head (empty_mem_listHeads (memAllocAt ptr) st.created) hlist
      have hnext' := (hs.mirror.next heE).trans hnext
      have hslab : slab ∈ st.created := h.mem_created (by simp) (hlist ▸ List.mem_cons_self)
      obtain ⟨l1, l2, b1, b2, e1, e2, e1', e2', hs2, hc2, hk2⟩ :=
        hs.moveSlab hp hm hsize h hc hslab
      refine Or.inr (Or.inr ⟨slab, _, _, ?_, ?_, hs2, hc2, hk2⟩)
      · rw [hp8] at hpn
        simp only [Slabs.chooseSlab, hp8, hpn, hen, hnext, e1, e2, Bool.not_true, Bool.not_false,
          Bool.false_eq_true, if_true, if_false, Option.bind_eq_bind, Option.bind_some]
      · rw [hp8] at hpe
        simp only [SlabBytes.chooseSlab, hp8, hpe, hee, hnext', e1', e2', Bool.not_true,
          Bool.not_false, Bool.false_eq_true, if_true, if_false, Option.bind_eq_bind,
          Option.bind_some]
    | true =>
      rw [hen] at hee
      rcases VirtState.physAlloc_page hpg.good hpg.handedOver with e | ⟨slab, vs, e, hg, hl, hdvd,
        hr, hnew, hlive, hzero⟩
      · refine Or.inl ⟨?_, ?_⟩
        · simp [Slabs.chooseSlab, Slabs.slabCreate, hpn, hen, e]
        · simp only [SlabBytes.chooseSlab, SlabBytes.slabCreate, hpe, hee, hs.virt, e,
            Bool.not_true, Bool.false_eq_true, if_false, Option.bind_eq_bind, Option.bind_some]
          rw [← hs.virt]
      cases he : vs.exec d entries (.makeGlobal slab 1) with
      | none =>
        refine Or.inr (Or.inl ⟨?_, ?_⟩)
        · simp [Slabs.chooseSlab, Slabs.slabCreate, hpn, hen, e, he]
        · simp [SlabBytes.chooseSlab, SlabBytes.slabCreate, hpe, hee, hs.virt, e, he]
      | some vs' =>
        obtain ⟨-, -, -, hmem⟩ := VirtState.makeGlobal_spec hg hl he
        have hf : Fresh d st slab := ⟨hdvd, hr, fun hc => hnew (hpg.held slab hc)⟩
        have hclear : ∀ y ∈ pageCells slab, vs'.phys.mem y = 0 := fun y hy => by
          have hb : block slab 6 ∈ vs.boot.clients.live := hlive ▸ List.mem_cons_self
          rw [hmem _ hb y hy, hzero y hy]
        obtain ⟨st1, l2, S1, b2, e1, e2, e1', e2', hs2, hc2, hk2⟩ :=
          hs.createSlab hp hm hsize h hc hf e he hclear
        refine Or.inr (Or.inr ⟨slab, _, _, ?_, ?_, hs2, hc2, hk2⟩)
        · rw [hp8] at hpn
          simp only [Slabs.chooseSlab, hp8, hpn, hen, e1, e2, Bool.not_true, Bool.false_eq_true,
            if_false, Option.bind_eq_bind, Option.bind_some]
        · rw [hp8] at hpe
          simp only [SlabBytes.chooseSlab, hp8, hpe, hee, e1', e2', Bool.not_true,
            Bool.false_eq_true, if_false, Option.bind_eq_bind, Option.bind_some]

/-- The object that `mem_alloc` returns is clear, and the live objects are as they were. -/
theorem SlabBytes.Sim.memAlloc (hs : S.Sim d ptr m st live)
    (hc : Clean m S.bytes st.created live) (hb : SlabBounds (memAllocAt ptr) m st lists)
    (hpg : SlabPages d entries st) :
    (st.memAlloc d entries (memAllocAt ptr) m = some (none, st) ∧
      S.memAlloc d entries (memAllocAt ptr) m = some (none, S)) ∨
    (st.memAlloc d entries (memAllocAt ptr) m = none ∧
      S.memAlloc d entries (memAllocAt ptr) m = none) ∨
    ∃ x st' S', st.memAlloc d entries (memAllocAt ptr) m = some (some x, st') ∧
      S.memAlloc d entries (memAllocAt ptr) m = some (some x, S') ∧
      S'.Sim d ptr m st' (x :: live) ∧ Clean m S'.bytes st'.created (x :: live) ∧
      (∀ k < m.objectSize, S'.bytes (x + k) = 0) ∧ Kept m S.bytes S'.bytes live := by
  rcases hs.chooseSlab hp hm hsize h hc hpg with ⟨e, e'⟩ | ⟨e, e'⟩ |
    ⟨slab, st1, S1, e, e', hs1, hc1, hk1⟩
  · refine Or.inl ⟨?_, ?_⟩
    · simp only [Slabs.memAlloc, e, Option.bind_eq_bind, Option.bind_some]
    · simp only [SlabBytes.memAlloc, e', Option.bind_eq_bind, Option.bind_some]
  · refine Or.inr (Or.inl ⟨?_, ?_⟩)
    · simp only [Slabs.memAlloc, e, Option.bind_eq_bind, Option.bind_none]
    · simp only [SlabBytes.memAlloc, e', Option.bind_eq_bind, Option.bind_none]
  · obtain ⟨lists1, ps, h1, hch⟩ : ∃ lists1 ps, SlabInv d (memAllocAt ptr) m st1 live lists1 ∧
        Chosen (memAllocAt ptr) m st1 lists1 slab ps := by
      rcases h.chooseSlab hp.ok hm hb hpg with ⟨e0, -⟩ | ⟨e0, -⟩ |
        ⟨s, ps, st2, lists1, e0, h1, -, hch⟩
      · simp [e] at e0
      · simp [e] at e0
      · simp only [e, Option.some.injEq, Prod.mk.injEq] at e0
        obtain ⟨rfl, rfl⟩ := e0
        exact ⟨lists1, ps, h1, hch⟩
    have hslab : slab ∈ st1.created := h1.mem_created (by simp) (hch.first ▸ List.mem_cons_self)
    obtain ⟨x, st', S', e2, e2', hs2, hsame, hzero⟩ := hs1.takeObject hp hm h1 hslab hch.lt
    obtain ⟨y, st2, -, e3, hyl, hyo, -, -, hcr, -⟩ := h1.takeObject hp.ok hm hch.first hch.lt
    obtain ⟨rfl, rfl⟩ : x = y ∧ st' = st2 := by
      simpa only [e2, Option.some.injEq, Prod.mk.injEq] using e3
    have hc2 := h1.clean_same hp hm hsize hc1 hsame
    have hk2 := h1.kept_same hp hm hsame
    refine Or.inr (Or.inr ⟨x, st', S', ?_, ?_, hs2, ⟨fun s hs' z hz hzl => ?_, ?_⟩, fun k hk => ?_,
      fun z hz k hk => ?_⟩)
    · simp only [Slabs.memAlloc, e, e2, Option.bind_eq_bind, Option.bind_some, Option.map_some]
    · simp only [SlabBytes.memAlloc, e', e2', Option.bind_eq_bind, Option.bind_some,
        Option.map_some]
    · exact hc2.zero s (hcr ▸ hs') z hz fun hl => hzl (List.mem_cons_of_mem _ hl)
    · rw [hcr]
      exact hc2.filler
    · by_cases hk16 : k < 16
      · exact hzero k hk16
      · exact hc2.zero slab hslab x hyo hyl k (by omega) hk
    · rw [hk2 z hz k hk, hk1 z hz k hk]

/-- A freed object is clear again, and the other live objects are as they were. -/
theorem SlabBytes.Sim.memFree_clean (hs : S.Sim d ptr m st live)
    (hc : Clean m S.bytes st.created live) (hx : x ∈ live) :
    ∃ st' S', st.memFree (memAllocAt ptr) m x = some st' ∧
      S.memFree (memAllocAt ptr) m x = some S' ∧ S'.Sim d ptr m st' (live.erase x) ∧
      Clean m S'.bytes st.created (live.erase x) ∧
      ∀ y ∈ live, y ≠ x → ∀ k < m.objectStride, S'.bytes (y + k) = S.bytes (y + k) := by
  obtain ⟨st', S', e, e', hs', hsame⟩ := hs.memFree hp hm h hx
  obtain ⟨slab, hslab, hobj⟩ := h.live_mem x hx
  have hdvd := (h.page slab hslab).1
  have hle := hm.size_le
  have hmem : ∀ y, y ∈ live.erase x ↔ y ≠ x ∧ y ∈ live := fun y => h.live_nodup.mem_erase_iff
  -- only the object is cleared
  have hother : ∀ s ∈ st.created, ∀ y ∈ objects m s, ∀ k < m.objectStride,
      (y ≠ x ∨ m.objectSize ≤ k) → memset 0 x m.objectSize S.bytes (y + k) = S.bytes (y + k) := by
    intro s hs1 y hy k hk hor
    rw [memset_apply, if_neg]
    rintro ⟨h1, h2⟩
    have heq := object_eq_of_add (n := y + k - x) hm (h.page s hs1).1 hdvd hy hobj hk (by omega)
      (by omega)
    omega
  have hsub : touched ptr m st.created (live.erase x) ⊆
      {e | (e ∈ allEntries d ptr m ∧ e ∉ live.erase x) ∨ ∃ s ∈ st.created, e = s + 32} := by
    rintro p (he | he)
    · rw [← h.usedEntries_erase hslab hobj] at he
      refine Or.inl ⟨?_, ?_⟩
      · rcases he with rfl | he
        · exact Or.inr ⟨slab, hdvd, (h.page slab hslab).2, Or.inr (Or.inr hobj)⟩
        · exact h.usedEntries_subset he
      · rcases he with rfl | he
        · exact fun hc => ((hmem p).mp hc).1 rfl
        · exact fun hc => h.live_notMem_used hp hm ((hmem p).mp hc).2 he
    · exact Or.inr he
  have hkeep : ∀ s ∈ st.created, ∀ y ∈ objects m s, ∀ k < m.objectStride,
      (y ∈ live.erase x ∨ 16 ≤ k) →
        S'.bytes (y + k) = memset 0 x m.objectSize S.bytes (y + k) := by
    intro s hs1 y hy k hk hor
    refine h.object_same hp hm hs1 hy hk hsame fun e he => ?_
    rcases hsub he with ⟨heA, hel⟩ | he
    · refine Or.inl ⟨heA, hor.imp_left fun hl => ?_⟩
      rintro rfl
      exact hel hl
    · exact Or.inr he
  refine ⟨st', S', e, e', hs', ⟨fun s hs1 y hy hyl k h1 h2 => ?_, fun s hs1 y hy k h1 h2 => ?_⟩,
    fun y hy hyx k hk => ?_⟩
  · rw [hkeep s hs1 y hy k (by omega) (Or.inr h1)]
    by_cases hyx : y = x
    · subst hyx
      rw [memset_apply, if_pos (by omega)]
    · rw [hother s hs1 y hy k (by omega) (Or.inl hyx)]
      exact hc.zero s hs1 y hy (fun hl => hyl ((hmem y).mpr ⟨hyx, hl⟩)) k h1 h2
  · rw [hkeep s hs1 y hy k h2 (Or.inr (by omega)), hother s hs1 y hy k h2 (Or.inr h1)]
    exact hc.filler s hs1 y hy k h1 h2
  · obtain ⟨s, hs1, hyo⟩ := h.live_mem y hy
    rw [hkeep s hs1 y hyo k hk (Or.inl ((hmem y).mpr ⟨hyx, hy⟩)),
      hother s hs1 y hyo k hk (Or.inl hyx)]

end Call

end Tomato
