import Tomato.Mem.Alloc.Bytes

/-!
# Where the entries of the slabs are

The entries of the lists of an allocator are its three heads, the links and the heads of its
slabs, and the free objects. They do not overlap with each other, nor with the other fields of
a slab, nor with what an object has behind its link.
-/

namespace Tomato

open Bytes Links

variable {d : DirectMap} {ptr : ℕ} {m : MemAllocMeta} {st : Slabs} {live created : List ℕ}
  {lists : ℕ → List ℕ} {b b' : Bytes} {slab slab' e e' x y k n : ℕ} {c : UInt8}

theorem memset_apply (dst len : ℕ) :
    memset c dst len b y = if dst ≤ y ∧ y < dst + len then c else b y := by
  induction len generalizing dst b with
  | zero => simp [memset]
  | succ len ih =>
      rw [memset, ih]
      by_cases h : dst = y
      · subst h
        simp
      · rw [Function.update_of_ne (Ne.symm h)]
        refine if_congr ?_ rfl rfl
        omega

/-- The `mem_alloc_t` is outside of the direct map. -/
structure AllocPlaced (d : DirectMap) (ptr : ℕ) : Prop where
  outside : ∀ y ∈ Set.Ico ptr (ptr + 56), y ∉ d.range
  le : ptr + 56 ≤ 2 ^ 64

/-- The entries of a slab. -/
def slabEntries (m : MemAllocMeta) (slab : ℕ) : Set ℕ :=
  {e | e = slab ∨ e = slabFree slab ∨ e ∈ objects m slab}

/-- The heads of an allocator, and the entries of the pages that may be slabs. -/
def allEntries (d : DirectMap) (ptr : ℕ) (m : MemAllocMeta) : Set ℕ :=
  {e | e ∈ [ptr + 8, ptr + 24, ptr + 40] ∨
    ∃ slab, 4096 ∣ slab ∧ pageCells slab ⊆ d.range ∧ e ∈ slabEntries m slab}

/-- The entries of the lists. -/
def usedEntries (ptr : ℕ) (m : MemAllocMeta) (created live : List ℕ) : Set ℕ :=
  {e | e ∈ [ptr + 8, ptr + 24, ptr + 40] ∨
    ∃ slab ∈ created, e = slab ∨ e = slabFree slab ∨ e ∈ objects m slab ∧ e ∉ live}

namespace AllocPlaced

theorem ok (h : AllocPlaced d ptr) : (memAllocAt ptr).Ok d := by
  refine ⟨?_, ?_, ?_, fun e he => h.outside e ?_⟩
  · simp [memAllocAt]
  · simp [memAllocAt]
  · simp [memAllocAt]
  · simp only [memAllocAt, List.mem_cons, List.not_mem_nil, or_false] at he
    simp only [Set.mem_Ico]
    omega

end AllocPlaced

/-- A slab entry is before or behind the fields of the header that are not lists. -/
theorem slabEntries_bounds (hm : m.Ok) (he : e ∈ slabEntries m slab) :
    slab ≤ e ∧ e + 16 ≤ slab + 4096 ∧ (e + 16 ≤ slab + 32 ∨ slab + 48 ≤ e) := by
  rcases he with rfl | rfl | he
  · omega
  · simp only [slabFree]
    omega
  · have := hm.bounds he
    omega

theorem slabEntries_apart (hm : m.Ok) (he : e ∈ slabEntries m slab)
    (he' : e' ∈ slabEntries m slab) (hlt : e < e') : e + 16 ≤ e' := by
  rcases he with rfl | rfl | he <;> rcases he' with rfl | rfl | he'
  · omega
  · simp only [slabFree]
    omega
  · have := hm.bounds he'
    omega
  · simp only [slabFree] at hlt
    omega
  · omega
  · have := hm.bounds he'
    simp only [slabFree]
    omega
  · have := hm.bounds he
    omega
  · have := hm.bounds he
    simp only [slabFree] at hlt
    omega
  · exact hm.apart he he' hlt

/-- A byte of a page of the direct map is not one of a head. -/
theorem AllocPlaced.notMem_head (hp : AllocPlaced d ptr) (hr : pageCells slab ⊆ d.range)
    (hy : y ∈ pageCells slab) (he : e ∈ [ptr + 8, ptr + 24, ptr + 40]) :
    y ∉ Set.Ico e (e + 16) := by
  intro hc
  refine hp.outside y ?_ (hr hy)
  simp only [List.mem_cons, List.not_mem_nil, or_false] at he
  simp only [Set.mem_Ico] at hc ⊢
  omega

/-- Different pages have different bytes. -/
theorem page_lt_or_lt (hs : 4096 ∣ slab) (hs' : 4096 ∣ slab') (hne : slab ≠ slab') :
    slab + 4096 ≤ slab' ∨ slab' + 4096 ≤ slab := by
  obtain ⟨i, rfl⟩ := hs
  obtain ⟨j, rfl⟩ := hs'
  omega

theorem allEntries_entries (hp : AllocPlaced d ptr) (hm : m.Ok) :
    Entries (allEntries d ptr m) := by
  refine ⟨?_, ?_⟩
  · rintro e (he | ⟨slab, hs, hr, he⟩) e' (he' | ⟨slab', hs', hr', he'⟩) hlt
    · simp only [List.mem_cons, List.not_mem_nil, or_false] at he he'
      omega
    · have hb := slabEntries_bounds hm he'
      have := hp.notMem_head hr' (y := e') (by simp only [pageCells, Set.mem_Ico]; omega) he
      simp only [Set.mem_Ico] at this
      omega
    · have hb := slabEntries_bounds hm he
      by_contra hc
      refine hp.notMem_head hr (y := e') ?_ he' ?_
      · simp only [pageCells, Set.mem_Ico]
        omega
      · simp
    · by_cases hne : slab = slab'
      · subst hne
        exact slabEntries_apart hm he he' hlt
      · have h1 := slabEntries_bounds hm he
        have h2 := slabEntries_bounds hm he'
        have := page_lt_or_lt hs hs' hne
        omega
  · rintro e (he | ⟨slab, hs, hr, he⟩)
    · have := hp.le
      simp only [List.mem_cons, List.not_mem_nil, or_false] at he
      omega
    · have hb := slabEntries_bounds hm he
      have hmem := hr (show e ∈ pageCells slab by simp only [pageCells, Set.mem_Ico]; omega)
      have htop := d.top
      simp only [DirectMap.range, Set.mem_Ico] at hmem
      omega

/-- The fields of a header that are not lists are in no entry. -/
theorem header_notMem (hp : AllocPlaced d ptr) (hm : m.Ok) (hs : 4096 ∣ slab)
    (hr : pageCells slab ⊆ d.range) (hy : y ∈ Set.Ico (slab + 32) (slab + 48))
    (he : e ∈ allEntries d ptr m) : y ∉ Set.Ico e (e + 16) := by
  simp only [Set.mem_Ico] at hy
  rcases he with he | ⟨slab', hs', hr', he⟩
  · exact hp.notMem_head hr (by simp only [pageCells, Set.mem_Ico]; omega) he
  · have hb := slabEntries_bounds hm he
    simp only [Set.mem_Ico]
    by_cases hne : slab = slab'
    · subst hne
      omega
    · have := page_lt_or_lt hs hs' hne
      omega

/-- Two objects of a slab are as far apart as the stride. -/
theorem objects_stride (hm : m.Ok) (hx : x ∈ objects m slab) (hy : y ∈ objects m slab)
    (hlt : x < y) : x + m.objectStride ≤ y := by
  obtain ⟨i, -, rfl⟩ := List.mem_map.mp hx
  obtain ⟨j, -, rfl⟩ := List.mem_map.mp hy
  have h1 := hm.stride_ge
  have hij : i < j := by
    by_contra hij
    have := Nat.mul_le_mul_left m.objectStride (not_lt.mp hij)
    omega
  have h2 := Nat.mul_le_mul_left m.objectStride (show i + 1 ≤ j from hij)
  rw [Nat.mul_add, Nat.mul_one] at h2
  omega

/-- An object and what is behind it ends in the page of its slab. -/
theorem objects_end (hm : m.Ok) (hx : x ∈ objects m slab) :
    slab + 48 ≤ x ∧ x + m.objectStride ≤ slab + 4096 := by
  refine ⟨(hm.bounds hx).1, ?_⟩
  obtain ⟨i, hi, rfl⟩ := List.mem_map.mp hx
  rw [List.mem_range] at hi
  have h3 := hm.fits
  have h4 : m.objectStride * (i + 1) ≤ m.objectStride * m.objectsPerSlab :=
    Nat.mul_le_mul_left _ hi
  rw [Memmap.PAGE_SIZE_eq] at h3
  rw [Nat.mul_add, Nat.mul_one] at h4
  omega

/-- The bytes of an object are in no other entry. -/
theorem object_notMem (hp : AllocPlaced d ptr) (hm : m.Ok) (hs : 4096 ∣ slab)
    (hr : pageCells slab ⊆ d.range) (hx : x ∈ objects m slab) (hk : k < m.objectStride)
    (he : e ∈ allEntries d ptr m) (hne : e ≠ x ∨ 16 ≤ k) : x + k ∉ Set.Ico e (e + 16) := by
  have hb := objects_end hm hx
  rcases he with he | ⟨slab', hs', hr', he⟩
  · exact hp.notMem_head hr (by simp only [pageCells, Set.mem_Ico]; omega) he
  · simp only [Set.mem_Ico]
    by_cases hss : slab = slab'
    · subst hss
      rcases he with rfl | rfl | he
      · omega
      · simp only [slabFree]
        omega
      · rcases Nat.lt_trichotomy e x with hlt | rfl | hlt
        · have := hm.apart he hx hlt
          omega
        · omega
        · have := objects_stride hm hx he hlt
          omega
    · have h1 := slabEntries_bounds hm he
      have := page_lt_or_lt hs hs' hss
      omega

theorem object_eq_of_add (hm : m.Ok) (hs : 4096 ∣ slab) (hs' : 4096 ∣ slab')
    (hx : x ∈ objects m slab) (hy : y ∈ objects m slab') (hk : k < m.objectStride)
    (hn : n < m.objectStride) (he : x + k = y + n) : x = y := by
  have h1 := objects_end hm hx
  have h2 := objects_end hm hy
  by_cases hss : slab = slab'
  · subst hss
    rcases Nat.lt_trichotomy x y with hlt | rfl | hlt
    · have := objects_stride hm hx hy hlt
      omega
    · rfl
    · have := objects_stride hm hy hx hlt
      omega
  · have := page_lt_or_lt hs hs' hss
    omega

namespace SlabInv

theorem usedEntries_eq (h : SlabInv d (memAllocAt ptr) m st live lists) :
    {e | ∃ h ∈ listHeads (memAllocAt ptr) st.created, e ∈ h :: lists h} =
      usedEntries ptr m st.created live := by
  ext e
  constructor
  · rintro ⟨head, hh | ⟨slab, hs, rfl⟩, he⟩
    · rcases List.mem_cons.mp he with rfl | he
      · exact Or.inl hh
      · exact Or.inr ⟨e, h.mem_created hh he, Or.inl rfl⟩
    · rcases List.mem_cons.mp he with rfl | he
      · exact Or.inr ⟨slab, hs, Or.inr (Or.inl rfl)⟩
      · exact Or.inr ⟨slab, hs, Or.inr (Or.inr ((h.free slab hs e).mp he))⟩
  · rintro (he | ⟨slab, hs, rfl | rfl | he⟩)
    · exact ⟨e, Or.inl he, List.mem_cons_self⟩
    · have hmem := h.perm.mem_iff.mpr hs
      simp only [List.mem_append] at hmem
      rcases hmem with (hmem | hmem) | hmem
      · exact ⟨_, partial_mem_listHeads _ _, List.mem_cons_of_mem _ hmem⟩
      · exact ⟨_, full_mem_listHeads _ _, List.mem_cons_of_mem _ hmem⟩
      · exact ⟨_, empty_mem_listHeads _ _, List.mem_cons_of_mem _ hmem⟩
    · exact ⟨_, slabFree_mem_listHeads hs, List.mem_cons_self⟩
    · exact ⟨_, slabFree_mem_listHeads hs, List.mem_cons_of_mem _ ((h.free slab hs e).mpr he)⟩

theorem linked (h : SlabInv d (memAllocAt ptr) m st live lists) :
    st.links.Linked (usedEntries ptr m st.created live) :=
  h.usedEntries_eq ▸ h.rings.linked

theorem usedEntries_subset (h : SlabInv d (memAllocAt ptr) m st live lists) :
    usedEntries ptr m st.created live ⊆ allEntries d ptr m := by
  rintro e (he | ⟨slab, hs, he⟩)
  · exact Or.inl he
  · obtain ⟨hdvd, hr⟩ := h.page slab hs
    exact Or.inr ⟨slab, hdvd, hr, he.imp_right (Or.imp_right And.left)⟩

end SlabInv

end Tomato
