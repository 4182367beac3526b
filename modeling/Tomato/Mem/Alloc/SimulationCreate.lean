import Tomato.Mem.Alloc.Simulation

/-!
# A new slab in memory

The page of a new slab is clear, so that its objects are clear behind their links, and its
counter is zero. Behind the objects it is filled.
-/

namespace Tomato

open Blocks Bytes Links

variable {d : DirectMap} {entries : Memmap} {ptr : ℕ} {m : MemAllocMeta} {st : Slabs}
  {S : SlabBytes} {live created : List ℕ} {lists : ℕ → List ℕ} {b b' : Bytes} {l : Links ℕ}
  {vs vs' : VirtState} {E : Set ℕ} {slab x y k n : ℕ}

/-- The first `n` objects of a slab. -/
def firstObjects (m : MemAllocMeta) (slab n : ℕ) : Set ℕ :=
  {x | ∃ i < n, x = slab + alignUp SLAB_SIZE m.objectAlign + m.objectStride * i}

theorem firstObjects_succ : firstObjects m slab (n + 1) =
    insert (slab + alignUp SLAB_SIZE m.objectAlign + m.objectStride * n)
      (firstObjects m slab n) := by
  ext x
  constructor
  · rintro ⟨i, hi, rfl⟩
    rcases Nat.lt_succ_iff_lt_or_eq.mp hi with hi | rfl
    · exact Or.inr ⟨i, hi, rfl⟩
    · exact Or.inl rfl
  · rintro (rfl | ⟨i, hi, rfl⟩)
    · exact ⟨n, n.lt_succ_self, rfl⟩
    · exact ⟨i, by omega, rfl⟩

theorem firstObjects_subset (hn : n ≤ m.objectsPerSlab) (hx : x ∈ firstObjects m slab n) :
    x ∈ objects m slab := by
  obtain ⟨i, hi, rfl⟩ := hx
  exact objects_succ_mem (by omega)

theorem mem_firstObjects : x ∈ firstObjects m slab m.objectsPerSlab ↔ x ∈ objects m slab := by
  refine ⟨firstObjects_subset le_rfl, fun hx => ?_⟩
  obtain ⟨i, hi, rfl⟩ := List.mem_map.mp hx
  exact ⟨i, List.mem_range.mp hi, rfl⟩

/-- The bytes behind the first objects of a slab. -/
def Filled (m : MemAllocMeta) (slab n : ℕ) (b : Bytes) : Prop :=
  ∀ x ∈ firstObjects m slab n, ∀ k, m.objectSize ≤ k → k < m.objectStride → b (x + k) = 0xBB

/-- The loop of `slab_create` links the objects, fills the bytes behind them and writes no
others. -/
theorem fillObjects_sim (hp : AllocPlaced d ptr) (hm : m.Ok) (hsize : 16 ≤ m.objectSize)
    (hdvd : 4096 ∣ slab) (hr : pageCells slab ⊆ d.range)
    (hM : Mirror (allEntries d ptr m) E b l) (hfree : slabFree slab ∈ E)
    (hout : ∀ x ∈ objects m slab, x ∉ E) (hn : n ≤ m.objectsPerSlab) :
    ∃ l' b', linkObjects (slabFree slab) (slab + alignUp SLAB_SIZE m.objectAlign) m.objectStride n
        l = some l' ∧
      fillObjects m (slabFree slab) (slab + alignUp SLAB_SIZE m.objectAlign) n b = some b' ∧
      Mirror (allEntries d ptr m) (firstObjects m slab n ∪ E) b' l' ∧ Filled m slab n b' ∧
      ∀ y, (∀ e ∈ firstObjects m slab n ∪ E, y ∉ Set.Ico e (e + 16)) →
        (∀ x ∈ firstObjects m slab n, ∀ k, m.objectSize ≤ k → k < m.objectStride → y ≠ x + k) →
        b' y = b y := by
  have hle := hm.size_le
  induction n with
  | zero =>
      have h0 : firstObjects m slab 0 = ∅ := by
        ext x
        simp [firstObjects]
      refine ⟨l, b, rfl, rfl, ?_, ?_, fun y _ _ => rfl⟩
      · rwa [h0, Set.empty_union]
      · rw [Filled, h0]
        simp
  | succ n ih =>
      obtain ⟨l1, b1, e1, e1', M1, hfill, hkeep⟩ := ih (by omega)
      obtain ⟨node, hnode⟩ : ∃ x, x = slab + alignUp SLAB_SIZE m.objectAlign + m.objectStride * n :=
        ⟨_, rfl⟩
      have hno : node ∈ objects m slab := hnode ▸ objects_succ_mem (by omega)
      have hnA : node ∈ allEntries d ptr m := Or.inr ⟨slab, hdvd, hr, Or.inr (Or.inr hno)⟩
      have hne : ∀ x ∈ firstObjects m slab n, x ≠ node := by
        rintro x ⟨i, hi, rfl⟩ hc
        have hstride := hm.stride_ge
        rw [hnode, Nat.add_left_cancel_iff] at hc
        have := Nat.eq_of_mul_eq_mul_left (by omega) hc
        omega
      have hnew : node ∉ firstObjects m slab n ∪ E := by
        rintro (hc | hc)
        · exact hne node hc rfl
        · exact hout node hno hc
      obtain ⟨l2, b2, e2, e2', M2, s2⟩ := M1.listAdd (Or.inr hfree) hnew hnA
      have hset : insert node (firstObjects m slab n ∪ E) = firstObjects m slab (n + 1) ∪ E := by
        rw [firstObjects_succ, ← hnode, Set.insert_union]
      rw [hset] at M2 s2
      obtain ⟨b3, hb3⟩ : ∃ b3, b3 = memset 0xBB (node + m.objectSize)
        (m.objectStride - m.objectSize) b2 := ⟨_, rfl⟩
      have hset3 : ∀ k, m.objectSize ≤ k → k < m.objectStride → b3 (node + k) = 0xBB := by
        intro k h1 h2
        rw [hb3, memset_apply, if_pos (by omega)]
      have hkeep3 : ∀ y, (∀ k, m.objectSize ≤ k → k < m.objectStride → y ≠ node + k) →
          b3 y = b2 y := by
        intro y hy
        rw [hb3, memset_apply, if_neg]
        rintro ⟨h1, h2⟩
        exact hy (y - node) (by omega) (by omega) (by omega)
      refine ⟨l2, b3, ?_, ?_, M2.congr fun e he y hy => hkeep3 y fun k h1 h2 => ?_, ?_, ?_⟩
      · rw [linkObjects, e1, Option.bind_some, ← hnode, e2]
      · simp only [fillObjects, e1', ← hnode, e2', ← hb3, Option.bind_eq_bind, Option.bind_some]
      · rintro rfl
        exact object_notMem hp hm hdvd hr hno h2 (M2.sub he) (Or.inr (by omega)) hy
      · intro x hx k h1 h2
        rw [firstObjects_succ, ← hnode] at hx
        rcases hx with rfl | hx
        · exact hset3 k h1 h2
        · have hxo := firstObjects_subset (by omega) hx
          rw [hkeep3 _ fun k' _ h2' hc => hne x hx
            (object_eq_of_add hm hdvd hdvd hxo hno h2 h2' hc), ← hfill x hx k h1 h2]
          exact s2 _ fun e he => object_notMem hp hm hdvd hr hxo h2 (M2.sub he) (Or.inr (by omega))
      · intro y hy hy'
        have hmem : ∀ x ∈ firstObjects m slab n, x ∈ firstObjects m slab (n + 1) := fun x hx => by
          rw [firstObjects_succ]
          exact Or.inr hx
        have hnmem : node ∈ firstObjects m slab (n + 1) := by
          rw [firstObjects_succ, ← hnode]
          exact Or.inl rfl
        rw [hkeep3 y (hy' node hnmem), s2 y hy]
        exact hkeep y (fun e he => hy e (he.imp_left (hmem e))) fun x hx => hy' x (hmem x hx)

/-- No byte of an entry of the lists is in a page that is not a slab. -/
theorem SlabInv.used_notMem_page (hp : AllocPlaced d ptr) (hm : m.Ok)
    (h : SlabInv d (memAllocAt ptr) m st live lists) (hf : Fresh d st slab) {e : ℕ}
    (he : e ∈ usedEntries ptr m st.created live) (hy : y ∈ pageCells slab) :
    y ∉ Set.Ico e (e + 16) := by
  rcases he with he | ⟨s, hs, he⟩
  · exact hp.notMem_head hf.range hy he
  · have hb := slabEntries_bounds hm (he.imp_right (Or.imp_right And.left))
    have hne : s ≠ slab := by
      rintro rfl
      exact hf.new hs
    have := page_lt_or_lt (h.page s hs).1 hf.dvd hne
    simp only [pageCells, Set.mem_Ico] at hy ⊢
    omega

theorem load_apply (b : Bytes) (p n : ℕ) (mem : ℕ → ℕ) :
    b.load p n mem y = if p ≤ y ∧ y < p + n then UInt8.ofNat (mem y) else b y := rfl

/-- What `slab_create` does to the bytes, `E` being the entries of the lists. -/
structure CreatedBytes (d : DirectMap) (ptr : ℕ) (m : MemAllocMeta) (slab : ℕ) (E : Set ℕ)
    (b b' : Bytes) (l' : Links ℕ) : Prop where
  mirror : Mirror (allEntries d ptr m)
    (firstObjects m slab m.objectsPerSlab ∪ insert (slabFree slab) E) b' l'
  owner : b'.read (slabAlloc slab) 8 = ptr
  count : b'.read (slabInUse slab) 2 = 0
  clear : ∀ x ∈ objects m slab, ∀ k, 16 ≤ k → k < m.objectSize → b' (x + k) = 0
  filled : Filled m slab m.objectsPerSlab b'
  outside : ∀ y, y ∉ pageCells slab → (∀ e ∈ E, y ∉ Set.Ico e (e + 16)) → b' y = b y

/-- The page is set up, starting from one that is clear. -/
theorem createBytes (hp : AllocPlaced d ptr) (hm : m.Ok) (hsize : 16 ≤ m.objectSize)
    (hdvd : 4096 ∣ slab) (hr : pageCells slab ⊆ d.range) {mem : ℕ → ℕ}
    (hzero : ∀ y ∈ pageCells slab, mem y = 0) (hM : Mirror (allEntries d ptr m) E b l)
    (hE : ∀ e ∈ E, ∀ y ∈ pageCells slab, y ∉ Set.Ico e (e + 16)) :
    ∃ l' b', linkObjects (slabFree slab) (slab + alignUp SLAB_SIZE m.objectAlign) m.objectStride
        m.objectsPerSlab (l.initList (slabFree slab)) = some l' ∧
      fillObjects m (slabFree slab) (slab + alignUp SLAB_SIZE m.objectAlign) m.objectsPerSlab
        (((b.load slab PAGE_SIZE mem).write (slabAlloc slab) 8 ptr).initList (slabFree slab)) =
          some b' ∧ CreatedBytes d ptr m slab E b b' l' := by
  have hptr : ptr < 256 ^ 8 := by
    have := hp.le
    norm_num
    omega
  obtain ⟨b0, hb0⟩ : ∃ b0, b0 = b.load slab PAGE_SIZE mem := ⟨_, rfl⟩
  have hclear0 : ∀ y ∈ pageCells slab, b0 y = 0 := by
    intro y hy
    have hy' := hy
    simp only [pageCells, Set.mem_Ico] at hy'
    rw [hb0, load_apply, Memmap.PAGE_SIZE_eq, if_pos hy', hzero y hy]
    rfl
  have hkeep0 : ∀ y, y ∉ pageCells slab → b0 y = b y := by
    intro y hy
    simp only [pageCells, Set.mem_Ico] at hy
    rw [hb0, load_apply, Memmap.PAGE_SIZE_eq, if_neg hy]
  have M0 : Mirror (allEntries d ptr m) E b0 l := hM.congr fun e he y hy =>
    hkeep0 y fun hc => hE e he y hc hy
  obtain ⟨b1, hb1⟩ : ∃ b1, b1 = b0.write (slabAlloc slab) 8 ptr := ⟨_, rfl⟩
  have hkeep1 : ∀ y, y ∉ Set.Ico (slab + 32) (slab + 40) → b1 y = b0 y := fun y hy => by
    rw [hb1]
    exact write_of_notMem hy
  have M1 : Mirror (allEntries d ptr m) E b1 l := M0.congr fun e he y hy => hkeep1 y fun hc => by
    refine header_notMem hp hm hdvd hr ?_ (hM.sub he) hy
    simp only [Set.mem_Ico] at hc ⊢
    omega
  -- the free list
  have hpage : ∀ e ∈ slabEntries m slab, ∀ y ∈ Set.Ico e (e + 16), y ∈ pageCells slab := by
    intro e he y hy
    have := slabEntries_bounds hm he
    simp only [pageCells, Set.mem_Ico] at hy ⊢
    omega
  have hnotE : ∀ e ∈ slabEntries m slab, e ∉ E := fun e he hc =>
    hE e hc e (hpage e he e (by simp)) (by simp)
  have hfreeE : slabFree slab ∈ slabEntries m slab := Or.inr (Or.inl rfl)
  obtain ⟨M2, s2⟩ := M1.initList (hnotE _ hfreeE) (Or.inr ⟨slab, hdvd, hr, hfreeE⟩)
  obtain ⟨l3, b3, e3, e3', M3, hfill, hkeep3⟩ := fillObjects_sim hp hm hsize hdvd hr M2
    (Set.mem_insert _ _) (fun x hx hc => by
      rcases hc with rfl | hc
      · exact (hm.not_header hdvd hdvd hx).2 rfl
      · exact hnotE x (Or.inr (Or.inr hx)) hc) le_rfl
  -- the other bytes
  have hkeep : ∀ y, (∀ e ∈ firstObjects m slab m.objectsPerSlab ∪ insert (slabFree slab) E,
      y ∉ Set.Ico e (e + 16)) → (∀ x ∈ objects m slab, ∀ k, m.objectSize ≤ k →
        k < m.objectStride → y ≠ x + k) → b3 y = b1 y := by
    intro y hy hy'
    rw [hkeep3 y hy fun x hx => hy' x (mem_firstObjects.mp hx)]
    refine s2 y fun e he => ?_
    rw [Set.mem_singleton_iff.mp he]
    exact hy _ (Or.inr (Set.mem_insert _ _))
  have hheader : ∀ y ∈ Set.Ico (slab + 32) (slab + 48), b3 y = b1 y := fun y hy => by
    refine hkeep y (fun e he => header_notMem hp hm hdvd hr hy (M3.sub he)) ?_
    rintro x hx k - - rfl
    have := objects_end hm hx
    simp only [Set.mem_Ico] at hy
    omega
  refine ⟨l3, b3, e3, by rw [← hb0, ← hb1, e3'], ⟨M3, ?_, ?_, fun x hx k h1 h2 => ?_, hfill,
    fun y hy hyE => ?_⟩⟩
  · rw [read_congr (b := b1) fun y hy => hheader y ?_, hb1, read_write hptr]
    simp only [slabAlloc, Set.mem_Ico] at hy ⊢
    omega
  · refine read_eq_zero fun y hy => ?_
    simp only [slabInUse, Set.mem_Ico] at hy
    rw [hheader y (by simp only [Set.mem_Ico]; omega),
      hkeep1 y (by simp only [Set.mem_Ico]; omega), hclear0 y]
    simp only [pageCells, Set.mem_Ico]
    omega
  · have hle := hm.size_le
    have hb := objects_end hm hx
    rw [hkeep, hkeep1 _ (by simp only [Set.mem_Ico]; omega), hclear0]
    · simp only [pageCells, Set.mem_Ico]
      omega
    · exact fun e he => object_notMem hp hm hdvd hr hx (by omega) (M3.sub he) (Or.inr h1)
    · intro x' hx' k' h1' h2' hc
      have := object_eq_of_add hm hdvd hdvd hx hx' (by omega) h2' hc
      omega
  · have hyp := hy
    simp only [pageCells, Set.mem_Ico] at hyp
    rw [hkeep, hkeep1 y (by simp only [Set.mem_Ico]; omega), hkeep0 y hy]
    · rintro e (he | rfl | he)
      · exact fun hc => hy (hpage e (Or.inr (Or.inr (mem_firstObjects.mp he))) y hc)
      · exact fun hc => hy (hpage _ hfreeE y hc)
      · exact hyE e he
    · rintro x hx k - h2 rfl
      have := objects_end hm hx
      omega

end Tomato
