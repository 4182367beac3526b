import Tomato.Mem.Alloc.BytesCalls

/-!
# The slabs in memory over whole runs

An allocator for one type in memory, with clients that write to their live objects, and with
everything else that uses the page table and the physical allocator. Every run is one of the
links, so that what holds there holds here, and `slabBytesOk_of_reachable` says what the bytes
are.
-/

namespace Tomato

open Blocks Bytes Links Transition

variable {d : DirectMap} {entries : Memmap} {ptr : ℕ} {m : MemAllocMeta} {T : CType} {st : Slabs}
  {lists : ℕ → List ℕ} {slab x y k : ℕ}

/-- The calls of an allocator, the writes of its clients, and the calls of everything else. -/
inductive BytesCall
  | alloc
  | free (ptr : ℕ)
  | write (object k : ℕ) (value : UInt8)
  | other (c : VirtCall)

/-- An allocator in memory and the objects that its clients hold. -/
structure BytesRun where
  slabs : SlabBytes
  live : List ℕ

namespace BytesRun

variable (d : DirectMap) (entries : Memmap) (ptr : ℕ) (m : MemAllocMeta) (r : BytesRun)

def exec : BytesCall → Option BytesRun
  | .alloc => (r.slabs.memAlloc d entries (memAllocAt ptr) m).map fun (object, st) =>
      ⟨st, object.toList ++ r.live⟩
  | .free x => (r.slabs.memFree (memAllocAt ptr) m x).map fun st => ⟨st, r.live.erase x⟩
  | .write x k v => some { r with slabs :=
      { r.slabs with bytes := Function.update r.slabs.bytes (x + k) v } }
  | .other c => (r.slabs.virt.exec d entries c).map fun vs =>
      { r with slabs := { r.slabs with virt := vs } }

/-- The clients write to their objects and free them, and nobody else frees a slab. -/
def Valid : BytesCall → Prop
  | .alloc => True
  | .free x => x ∈ r.live
  | .write x k _ => x ∈ r.live ∧ k < m.objectSize
  | .other c => r.slabs.virt.Valid d c ∧ ∀ slab ∈ r.slabs.created, ∀ size,
      c ≠ .client (.free slab size) ∧ c ≠ .client (.freeReserved slab size)

/-- The heads are `LIST_INIT`, and the physical allocator has got its memory. -/
def Initial : Prop :=
  Reachable (VirtState.Initial d entries) (VirtState.Step d entries) r.slabs.virt ∧
    r.slabs.virt.handedOver = true ∧ r.slabs.created = [] ∧ r.live = [] ∧
    ∀ h ∈ [ptr + 8, ptr + 24, ptr + 40],
      r.slabs.bytes.read h 8 = h ∧ r.slabs.bytes.read (h + 8) 8 = h

def Step (r r' : BytesRun) : Prop := ∃ c, r.Valid d m c ∧ r.exec d entries ptr m c = some r'

/-- A run of the links leads to the same lists and objects. -/
def Refines (st : Slabs) : Prop :=
  Reachable (SlabRun.Initial d entries (memAllocAt ptr))
      (SlabRun.Step d entries (memAllocAt ptr) m) ⟨st, r.live⟩ ∧
    r.slabs.Sim d ptr m st r.live

/-- What holds in every reachable state. -/
def Good : Prop :=
  ∃ st, r.Refines d entries ptr m st ∧ Clean m r.slabs.bytes st.created r.live

variable {d entries ptr m r} {r' : BytesRun}

theorem refines_of_initial (hv : entries.Valid) (hd : entries.HasDirectMap d)
    (hk : KERNEL_REGION_BASE ≤ d.base) (hp : AllocPlaced d ptr) (hm : m.Ok)
    (h : r.Initial d entries ptr) : ∃ st, r.Refines d entries ptr m st ∧ st.created = [] := by
  obtain ⟨hreach, hl, hcr, hlive, hheads⟩ := h
  obtain ⟨st, hst⟩ : ∃ st : Slabs, st = ⟨r.slabs.bytes.links, fun _ => 0, fun _ => 0,
    r.slabs.virt, []⟩ := ⟨_, rfl⟩
  have h0 : (SlabRun.mk st r.live).Initial d entries (memAllocAt ptr) := by
    refine ⟨hst ▸ hreach, hst ▸ hl, hst ▸ rfl, hlive, fun h hh => ?_⟩
    obtain ⟨h1, h2⟩ := hheads h hh
    exact hst ▸ ⟨List.nodup_singleton h, h1, h2⟩
  obtain ⟨-, lists, hi, -⟩ := SlabRun.good_of_initial (m := m) hv hd hk hp.ok h0
  refine ⟨st, ⟨.start h0, ⟨allEntries_entries hp hm, hi.usedEntries_subset, hi.linked, ?_⟩, ?_, ?_,
    ?_⟩, hst ▸ rfl⟩
  · exact hst ▸ ⟨fun e _ => rfl, fun e _ => rfl⟩
  · exact hst ▸ ⟨by simp, by simp⟩
  · rw [hst]
  · rw [hst, hcr]

/-- A client writes to one of its objects only. -/
theorem refines_write (hp : AllocPlaced d ptr) (hm : m.Ok)
    (hi : SlabInv d (memAllocAt ptr) m st r.live lists) (hs : r.slabs.Sim d ptr m st r.live)
    (hc : Clean m r.slabs.bytes st.created r.live) (hx : x ∈ r.live) (hk : k < m.objectSize)
    (v : UInt8) :
    SlabBytes.Sim d ptr m { r.slabs with bytes := Function.update r.slabs.bytes (x + k) v } st
        r.live ∧
      Clean m (Function.update r.slabs.bytes (x + k) v) st.created r.live := by
  obtain ⟨slab, hslab, hobj⟩ := hi.live_mem x hx
  obtain ⟨hdvd, hr⟩ := hi.page slab hslab
  have hle := hm.size_le
  have hend := objects_end hm hobj
  have hother : ∀ s ∈ st.created, ∀ y ∈ objects m s, ∀ n < m.objectStride,
      (y ≠ x ∨ m.objectSize ≤ n) → y + n ≠ x + k := by
    intro s hs' y hy n hn hor he
    have := object_eq_of_add hm (hi.page s hs').1 hdvd hy hobj hn (by omega) he
    omega
  refine ⟨⟨hs.mirror.congr fun e he y hy => Function.update_of_ne ?_ _ _,
    hs.headers.congr fun s hs' y hy => Function.update_of_ne ?_ _ _, hs.virt, hs.created⟩,
    fun s hs' y hy hl n h1 h2 => ?_, fun s hs' y hy n h1 h2 => ?_⟩
  · rintro rfl
    refine object_notMem hp hm hdvd hr hobj (by omega) (hs.mirror.sub he) (Or.inl ?_) hy
    rintro rfl
    exact hi.live_notMem_used hp hm hx he
  · rintro rfl
    simp only [Set.mem_Ico] at hy
    by_cases hss : s = slab
    · omega
    · have := page_lt_or_lt (hi.page s hs').1 hdvd hss
      omega
  · rw [Function.update_of_ne (hother s hs' y hy n (by omega) (Or.inl ?_))]
    · exact hc.zero s hs' y hy hl n h1 h2
    · rintro rfl
      exact hl hx
  · rw [Function.update_of_ne (hother s hs' y hy n h2 (Or.inr h1))]
    exact hc.filler s hs' y hy n h1 h2

/-- Every run is one of the links, and leaves the objects that are not live clear. -/
theorem good_of_reachable (hv : entries.Valid) (hd : entries.HasDirectMap d)
    (hk : KERNEL_REGION_BASE ≤ d.base) (hp : AllocPlaced d ptr) (hm : m.Ok)
    (hsize : 16 ≤ m.objectSize)
    (h : Reachable (Initial d entries ptr) (Step d entries ptr m) r) :
    r.Good d entries ptr m := by
  refine h.invariant (fun r0 h0 => ?_) fun r r' ⟨st, ⟨hreach, hs⟩, hc⟩ ⟨c, hvalid, he⟩ => ?_
  · obtain ⟨st, hst, hcr⟩ := refines_of_initial hv hd hk hp hm h0
    exact ⟨st, hst, by rw [hcr]; exact ⟨by simp, by simp⟩⟩
  obtain ⟨hpg, lists, hi, hb⟩ := SlabRun.good_of_reachable hv hd hk hp.ok hm hreach
  cases c with
  | alloc =>
    simp only [exec, Option.map_eq_some_iff] at he
    obtain ⟨⟨o, S'⟩, e, rfl⟩ := he
    rcases hs.memAlloc hp hm hsize hi hc hb hpg with ⟨e1, e1'⟩ | ⟨-, e1'⟩ |
      ⟨x, st', S1, e1, e1', hs', hc', -⟩
    · obtain ⟨rfl, rfl⟩ := Prod.mk.inj (Option.some.inj (e.symm.trans e1'))
      exact ⟨st, ⟨hreach, hs⟩, hc⟩
    · simp [e] at e1'
    · obtain ⟨rfl, rfl⟩ := Prod.mk.inj (Option.some.inj (e.symm.trans e1'))
      refine ⟨st', ⟨hreach.next ⟨.alloc, trivial, ?_⟩, hs'⟩, hc'⟩
      simp [SlabRun.exec, e1]
  | free x =>
    simp only [exec, Option.map_eq_some_iff] at he
    obtain ⟨S', e, rfl⟩ := he
    obtain ⟨st', S1, e1, e1', hs', hc', -⟩ := hs.memFree_clean hp hm hsize hi hc hvalid
    obtain rfl := Option.some.inj (e.symm.trans e1')
    obtain ⟨st2, -, e2, -, -, -, hcr⟩ := hi.memFree hp.ok hm hb hvalid
    obtain rfl := Option.some.inj (e1.symm.trans e2)
    refine ⟨st', ⟨hreach.next ⟨.free x, hvalid, ?_⟩, hs'⟩, hcr.symm ▸ hc'⟩
    simp [SlabRun.exec, e1]
  | write x k v =>
    obtain rfl := Option.some.inj he
    obtain ⟨hs', hc'⟩ := refines_write hp hm hi hs hc hvalid.1 hvalid.2 v
    exact ⟨st, ⟨hreach, hs'⟩, hc'⟩
  | other c =>
    simp only [exec, Option.map_eq_some_iff] at he
    obtain ⟨vs, e, rfl⟩ := he
    obtain ⟨hvalid, hfree⟩ := hvalid
    rw [hs.virt] at hvalid e
    rw [hs.created] at hfree
    refine ⟨{ st with virt := vs }, ⟨hreach.next ⟨.other c, ⟨hvalid, hfree⟩, ?_⟩,
      ⟨hs.mirror, hs.headers, rfl, hs.created⟩⟩, hc⟩
    simp [SlabRun.exec, e]

end BytesRun

/-- The alignment of a type divides the page size. -/
theorem CType.DefineAlloc.align_dvd_page (h : T.DefineAlloc) : T.align ∣ 4096 := by
  obtain ⟨k, hk⟩ := T.align_pow
  have hpos : 0 < T.align := hk ▸ Nat.two_pow_pos k
  have hfits : alignUp SLAB_SIZE T.align ≤ 4096 := by
    have := h.ok.fits
    rw [Memmap.PAGE_SIZE_eq] at this
    exact (Nat.le_add_right _ _).trans this
  -- the area starts at a multiple of the alignment that is not zero
  have hle : T.align ≤ 4096 := by
    refine (Nat.le_of_dvd ?_ (Nat.dvd_mul_left T.align _)).trans hfits
    have := le_alignUp SLAB_SIZE hpos
    simp only [SLAB_SIZE, alignUp] at this ⊢
    omega
  have hk12 : k ≤ 12 := by
    rw [hk] at hle
    exact (Nat.pow_le_pow_iff_right (by norm_num : 1 < 2)).mp (hle.trans_eq (by norm_num))
  rw [hk, show 4096 = 2 ^ 12 by norm_num]
  exact Nat.pow_dvd_pow 2 hk12

/-- The objects of a slab are aligned. -/
theorem CType.DefineAlloc.align_dvd_object (h : T.DefineAlloc) (hs : 4096 ∣ slab)
    (hx : x ∈ objects T.allocMeta slab) : T.align ∣ x := by
  obtain ⟨i, -, rfl⟩ := List.mem_map.mp hx
  refine Nat.dvd_add (Nat.dvd_add (h.align_dvd_page.trans hs) (Nat.dvd_mul_left _ _)) ?_
  exact Dvd.dvd.mul_right (Nat.dvd_mul_left _ _) i

namespace BytesRun

/-- What is said of the bytes of the slabs, in any state. -/
structure SlabBytesOk (d : DirectMap) (entries : Memmap) (ptr : ℕ) (T : CType) (r : BytesRun) :
    Prop where
  placed : ∀ x ∈ r.live, T.align ∣ x ∧ ∃ slab ∈ r.slabs.created, slab + SLAB_SIZE ≤ x ∧
    x + T.size ≤ slab + PAGE_SIZE ∧ objectToSlab x = slab ∧
      r.slabs.bytes.read (slabAlloc slab) 8 = ptr
  apart : r.live.Nodup ∧ ∀ x ∈ r.live, ∀ y ∈ r.live, x < y → x + T.size ≤ y
  filler : ∀ slab ∈ r.slabs.created, ∀ x ∈ objects T.allocMeta slab, ∀ k, T.size ≤ k →
    k < T.allocStride → r.slabs.bytes (x + k) = 0xBB
  memAlloc : ∀ x S', r.slabs.memAlloc d entries (memAllocAt ptr) T.allocMeta = some (some x, S') →
    x ∉ r.live ∧ (∀ k < T.size, S'.bytes (x + k) = 0) ∧
      ∀ y ∈ r.live, ∀ k < T.size, S'.bytes (y + k) = r.slabs.bytes (y + k)
  memAlloc_stops : r.slabs.memAlloc d entries (memAllocAt ptr) T.allocMeta = none →
    ∃ slab vs, r.slabs.virt.physAlloc d PAGE_SIZE = some (some slab, vs) ∧
      vs.exec d entries (.makeGlobal slab 1) = none
  memFree : ∀ x ∈ r.live, ∃ S', r.slabs.memFree (memAllocAt ptr) T.allocMeta x = some S' ∧
    ∀ y ∈ r.live, y ≠ x → ∀ k < T.size, S'.bytes (y + k) = r.slabs.bytes (y + k)
  refines : ∃ st, r.Refines d entries ptr T.allocMeta st

/-- In every run in which the clients write to their live objects only, for every type that
`DEFINE_ALLOC` admits. -/
theorem slabBytesOk_of_reachable {r : BytesRun} (hv : entries.Valid)
    (hd : entries.HasDirectMap d) (hk : KERNEL_REGION_BASE ≤ d.base) (hp : AllocPlaced d ptr)
    (hT : T.DefineAlloc)
    (h : Reachable (Initial d entries ptr) (Step d entries ptr T.allocMeta) r) :
    SlabBytesOk d entries ptr T r := by
  have hm := hT.ok
  have hle : T.size ≤ T.allocStride := hT.stride_ge
  obtain ⟨st, ⟨hreach, hs⟩, hc⟩ := good_of_reachable hv hd hk hp hm hT.size_ge h
  obtain ⟨hpg, lists, hi, hb⟩ := SlabRun.good_of_reachable hv hd hk hp.ok hm hreach
  refine ⟨fun x hx => ?_, ⟨hi.live_nodup, fun x hx y hy hlt => ?_⟩, fun slab hs' x hx k h1 h2 => ?_,
    fun x S' e => ?_, fun e => ?_, fun x hx => ?_, st, hreach, hs⟩
  · obtain ⟨slab, hslab, hobj⟩ := hi.live_mem x hx
    have hend := objects_end hm hobj
    have hdvd := (hi.page slab hslab).1
    refine ⟨hT.align_dvd_object hdvd hobj, slab, hs.created.symm ▸ hslab, hend.1, ?_,
      hm.objectToSlab hdvd hobj, (hs.headers.alloc slab hslab).trans (hi.owner slab hslab)⟩
    have h2 : x + T.allocStride ≤ slab + 4096 := hend.2
    rw [Memmap.PAGE_SIZE_eq]
    omega
  · obtain ⟨s, hs1, hxo⟩ := hi.live_mem x hx
    obtain ⟨s', hs2, hyo⟩ := hi.live_mem y hy
    have h1 : x + T.allocStride ≤ s + 4096 := (objects_end hm hxo).2
    have h2 := objects_end hm hyo
    have h3 := objects_end hm hxo
    by_cases hss : s = s'
    · subst hss
      have : x + T.allocStride ≤ y := objects_stride hm hxo hyo hlt
      omega
    · have := page_lt_or_lt (hi.page s hs1).1 (hi.page s' hs2).1 hss
      have h4 : y + T.allocStride ≤ s' + 4096 := h2.2
      omega
  · exact hc.filler slab (hs.created ▸ hs') x hx k h1 h2
  · rcases hs.memAlloc hp hm hT.size_ge hi hc hb hpg with ⟨-, e1⟩ | ⟨-, e1⟩ |
      ⟨z, st', S1, e1, e1', -, -, hzero, hkept⟩
    · simp [e] at e1
    · simp [e] at e1
    · obtain ⟨hz, rfl⟩ := Prod.mk.inj (Option.some.inj (e.symm.trans e1'))
      obtain rfl := Option.some.inj hz
      refine ⟨?_, hzero, fun y hy k hk => hkept y hy k (hk.trans_le hle)⟩
      exact ((SlabRun.good_of_reachable hv hd hk hp.ok hm hreach).memAlloc hp.ok hm e1).2 x rfl |>.1
  · rcases hi.memAlloc hp.ok hm hb hpg with ⟨e1, -⟩ | ⟨e1, hnone⟩ | ⟨z, st', lists', e1, -⟩
    · rcases hs.memAlloc hp hm hT.size_ge hi hc hb hpg with ⟨-, e2⟩ | ⟨e2, -⟩ |
        ⟨_, _, _, _, e2, -⟩
      · simp [e] at e2
      · simp [e1] at e2
      · simp [e] at e2
    · rwa [hs.virt]
    · rcases hs.memAlloc hp hm hT.size_ge hi hc hb hpg with ⟨-, e2⟩ | ⟨e2, -⟩ |
        ⟨_, _, _, _, e2, -⟩
      · simp [e] at e2
      · simp [e1] at e2
      · simp [e] at e2
  · obtain ⟨-, S', -, e, -, -, hkept⟩ := hs.memFree_clean hp hm hT.size_ge hi hc hx
    exact ⟨S', e, fun y hy hyx k hk => hkept y hy hyx k (hk.trans_le hle)⟩

/-- An allocator for `cacheLine` in the data of the kernel. -/
theorem slabBytesOk_cacheLine : ∃ r : BytesRun,
    SlabBytesOk VirtState.eightPagesMap VirtState.eightPages 0x1000 SlabRun.cacheLine r := by
  obtain ⟨vs, hvs, hl, -⟩ := VirtState.exists_reachable_eightPages
  obtain ⟨b, hb⟩ : ∃ b : Bytes, ∀ h ∈ [0x1000 + 8, 0x1000 + 24, 0x1000 + 40],
      b.read h 8 = h ∧ b.read (h + 8) 8 = h := by
    refine ⟨Bytes.initList (Bytes.initList (Bytes.initList (fun _ => 0) 0x1008) 0x1018) 0x1028, ?_⟩
    decide
  refine ⟨⟨⟨b, vs, []⟩, []⟩, slabBytesOk_of_reachable VirtState.eightPages_valid
    (show 0x108 = 0x108000 / PAGE_SIZE by decide) le_rfl ⟨fun y hy => ?_, by decide⟩
    ⟨by decide, by decide, by decide, by decide, by decide, by decide, by decide⟩
    (.start ⟨hvs, hl, rfl, rfl, hb⟩)⟩
  simp only [DirectMap.range, VirtState.eightPagesMap, Set.mem_Ico] at hy ⊢
  omega

end BytesRun

end Tomato
