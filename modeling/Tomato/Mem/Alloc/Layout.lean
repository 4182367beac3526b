import Tomato.Mem.Alloc.Basic

/-!
# The layout of a slab

The objects of a slab come after its header and end inside its page, for every type that
passes the static assertions of `DEFINE_ALLOC`. So the entries of a slab, which are its
link, the head of its free list and its objects, do not overlap, and neither do those of
different slabs.
-/

namespace Tomato

variable {T : CType} {m : MemAllocMeta} {slab slab' x y align : ℕ}

theorem le_alignUp (x : ℕ) (h : 0 < align) : x ≤ alignUp x align := by
  have h1 := Nat.div_add_mod (x + (align - 1)) align
  have h2 := Nat.mod_lt (x + (align - 1)) h
  rw [alignUp, Nat.mul_comm]
  omega

theorem alignUp_le (x align : ℕ) : alignUp x align ≤ x + (align - 1) := Nat.div_mul_le_self _ _

/-- What the code relies on. -/
structure MemAllocMeta.Ok (m : MemAllocMeta) : Prop where
  size_le : m.objectSize ≤ m.objectStride
  stride_ge : 16 ≤ m.objectStride
  area_ge : SLAB_SIZE ≤ alignUp SLAB_SIZE m.objectAlign
  fits : alignUp SLAB_SIZE m.objectAlign + m.objectStride * m.objectsPerSlab ≤ PAGE_SIZE
  objects_ge : 1 ≤ m.objectsPerSlab
  objects_le : m.objectsPerSlab ≤ UINT16_MAX

/-- The static assertions are enough, as they exclude an alignment for which the
difference of `DEFINE_ALLOC` wraps around. -/
theorem CType.DefineAlloc.ok (h : T.DefineAlloc) : T.allocMeta.Ok := by
  have hpos : 0 < T.align := by
    obtain ⟨k, hk⟩ := T.align_pow
    rw [hk]
    exact Nat.two_pow_pos k
  have hstride : 16 ≤ T.allocStride := h.size_ge.trans h.stride_ge
  refine ⟨h.stride_ge, hstride, le_alignUp _ hpos, ?_, h.objects_ge, h.objects_le⟩
  have hup := alignUp_le SLAB_SIZE T.align
  have hle := h.align_le
  have hsl := h.stride_le
  have hobj := h.objects_le
  simp only [SLAB_SIZE, UINT16_MAX] at hup hle hsl hobj
  simp only [CType.allocMeta, CType.allocObjectsPerSlab] at hobj ⊢
  simp only [Memmap.PAGE_SIZE_eq, SLAB_SIZE] at hobj ⊢
  by_cases hA : alignUp 48 T.align ≤ 4096
  · have hmod : (4096 + 2 ^ 64 - alignUp 48 T.align) % 2 ^ 64 = 4096 - alignUp 48 T.align := by
      omega
    rw [hmod]
    have := Nat.mul_div_le (4096 - alignUp 48 T.align) T.allocStride
    omega
  · have hmod : (4096 + 2 ^ 64 - alignUp 48 T.align) % 2 ^ 64 =
        4096 + 2 ^ 64 - alignUp 48 T.align := Nat.mod_eq_of_lt (by omega)
    rw [hmod] at hobj
    have hmany : 65536 ≤ (4096 + 2 ^ 64 - alignUp 48 T.align) / T.allocStride := by
      rw [Nat.le_div_iff_mul_le (by omega)]
      have : 65536 * T.allocStride ≤ 65536 * 65535 := Nat.mul_le_mul_left _ hsl
      omega
    omega

/-- The objects of a slab. -/
def objects (m : MemAllocMeta) (slab : ℕ) : List ℕ :=
  (List.range m.objectsPerSlab).map fun i =>
    slab + alignUp SLAB_SIZE m.objectAlign + m.objectStride * i

@[simp] theorem length_objects : (objects m slab).length = m.objectsPerSlab := by simp [objects]

namespace MemAllocMeta.Ok

theorem bounds (h : m.Ok) (hx : x ∈ objects m slab) : slab + 48 ≤ x ∧ x + 16 ≤ slab + 4096 := by
  obtain ⟨i, hi, rfl⟩ := List.mem_map.mp hx
  rw [List.mem_range] at hi
  have h1 := h.stride_ge
  have h2 := h.area_ge
  have h3 := h.fits
  have h4 : m.objectStride * (i + 1) ≤ m.objectStride * m.objectsPerSlab :=
    Nat.mul_le_mul_left _ hi
  rw [Memmap.PAGE_SIZE_eq] at h3
  rw [Nat.mul_add, Nat.mul_one] at h4
  simp only [SLAB_SIZE] at *
  omega

/-- Two objects of a slab are as far apart as the link of an object is long. -/
theorem apart (h : m.Ok) (hx : x ∈ objects m slab) (hy : y ∈ objects m slab) (hlt : x < y) :
    x + 16 ≤ y := by
  obtain ⟨i, -, rfl⟩ := List.mem_map.mp hx
  obtain ⟨j, -, rfl⟩ := List.mem_map.mp hy
  have h1 := h.stride_ge
  have hij : i < j := by
    by_contra hij
    have := Nat.mul_le_mul_left m.objectStride (not_lt.mp hij)
    omega
  have h2 := Nat.mul_le_mul_left m.objectStride (show i + 1 ≤ j from hij)
  rw [Nat.mul_add, Nat.mul_one] at h2
  omega

theorem nodup (h : m.Ok) (slab : ℕ) : (objects m slab).Nodup := by
  refine List.Nodup.map_on (fun i _ j _ he => ?_) List.nodup_range
  have h1 := h.stride_ge
  exact Nat.eq_of_mul_eq_mul_left (by omega) (Nat.add_left_cancel he)

theorem objectToSlab (h : m.Ok) (hs : 4096 ∣ slab) (hx : x ∈ objects m slab) :
    objectToSlab x = slab := by
  have hb := h.bounds hx
  obtain ⟨k, rfl⟩ := hs
  rw [Tomato.objectToSlab, alignDown, Memmap.PAGE_SIZE_eq]
  omega

/-- An object is not an entry of a slab header. -/
theorem not_header (h : m.Ok) (hs : 4096 ∣ slab) (hs' : 4096 ∣ slab') (hx : x ∈ objects m slab) :
    x ≠ slab' ∧ x ≠ slabFree slab' := by
  have hb := h.bounds hx
  obtain ⟨k, rfl⟩ := hs
  obtain ⟨k', rfl⟩ := hs'
  simp only [slabFree]
  omega

theorem eq_of_mem (h : m.Ok) (hs : 4096 ∣ slab) (hs' : 4096 ∣ slab') (hx : x ∈ objects m slab)
    (hx' : x ∈ objects m slab') : slab = slab' :=
  (h.objectToSlab hs hx).symm.trans (h.objectToSlab hs' hx')

end MemAllocMeta.Ok

theorem slabFree_inj (h : slabFree slab = slabFree slab') : slab = slab' := Nat.add_right_cancel h

theorem slab_ne_slabFree (hs : 4096 ∣ slab) (hs' : 4096 ∣ slab') : slab ≠ slabFree slab' := by
  obtain ⟨k, rfl⟩ := hs
  obtain ⟨k', rfl⟩ := hs'
  simp only [slabFree]
  omega

end Tomato
