import Tomato.Mem.Phys.Invariant

/-!
# The steps of the physical allocator

Unlinking a free block, linking a block, and changing the bit of a block, each
with the part of memory it may write (`Frame`).
-/

namespace Tomato

open Blocks

namespace Phys

/-- The memory `m'` differs from `m` only in the list heads and inside `W`. -/
def Frame (d : DirectMap) (W : Set ℕ) (m m' : Memory) : Prop :=
  ∀ a ∉ W, (∀ l < 16, a ≠ d.head l) → m' a = m a

def freeCells (fl : FreeLists) : Set ℕ := ⋃ b ∈ freeBlocks fl, b.cells

theorem mem_freeCells {fl : FreeLists} {a : ℕ} :
    a ∈ freeCells fl ↔ ∃ l, ∃ p ∈ fl l, a ∈ (block p l).cells := by
  simp only [freeCells, Set.mem_iUnion, exists_prop]
  constructor
  · rintro ⟨b, ⟨l, p, hp, rfl⟩, ha⟩
    exact ⟨l, p, hp, ha⟩
  · rintro ⟨l, p, hp, ha⟩
    exact ⟨block p l, ⟨l, p, hp, rfl⟩, ha⟩

namespace Frame

variable {d : DirectMap} {W W' : Set ℕ} {m m' m'' : Memory}

theorem refl (W : Set ℕ) (m : Memory) : Frame d W m m := fun _ _ _ => rfl

theorem mono (h : Frame d W m m') (hW : W ⊆ W') : Frame d W' m m' := fun a ha hh =>
  h a (fun hc => ha (hW hc)) hh

theorem trans (h : Frame d W m m') (h' : Frame d W m' m'') : Frame d W m m'' := fun a ha hh =>
  (h' a ha hh).trans (h a ha hh)

end Frame

namespace Inv

variable {d : DirectMap} {s : Phys} {fl : FreeLists} {live floats : Set Block} {M : Set ℕ}
  {p q l k a : ℕ} {b c : Block}

theorem mem_cells_offset (h : Inv d s fl live floats M) (hp : p ∈ fl l) (k : ℕ) (hk : k < 64) :
    p + k ∈ (block p l).cells :=
  h.offset_mem (b := block p l) (mem_all_of_free hp) (Nat.le_add_right p k)
    (Nat.add_lt_add_left hk p)

/-- Unlinking a free block and wiping its header leaves the other words alone. -/
theorem unlink_mem_of_outside (h : Inv d s fl live floats M) (hp : p ∈ fl l)
    (ha : a ≠ d.head l) (hout : ∀ y ∈ fl l, Outside a y) (hpa : a < p ∨ p + 24 ≤ a) :
    clearPageHeader (hlistDel s.mem p) p a = s.mem a := by
  obtain ⟨as, bs, hsplit⟩ := List.append_of_mem hp
  have hc := h.chain l (h.level_lt hp)
  rw [hsplit] at hc hout
  rw [clearPageHeader, Memory.zero_of_notMem _ hpa]
  exact hlistDel_frame hc ha hout

theorem unlink_frame (h : Inv d s fl live floats M) (hp : p ∈ fl l) :
    Frame d (freeCells fl) s.mem (clearPageHeader (hlistDel s.mem p) p) := by
  intro a hfree ha
  have hout : ∀ y ∈ fl l, ∀ j < 64, a ≠ y + j := by
    rintro y hy j hj rfl
    exact hfree (mem_freeCells.mpr ⟨l, y, hy, h.mem_cells_offset hy j hj⟩)
  refine h.unlink_mem_of_outside hp (ha l (h.level_lt hp)) ?_ ?_
  · intro y hy
    exact ⟨hout y hy 0 (by omega), hout y hy 8 (by omega)⟩
  · by_contra hcon
    exact hout p hp (a - p) (by omega) (by omega)

/-- The words of the other free blocks, apart from their link words, and the
words of all other blocks survive the unlinking. -/
theorem unlink_mem_of_ne (h : Inv d s fl live floats M) (hp : p ∈ fl l)
    (hc : c ∈ freeBlocks fl ∪ live ∪ floats) (hne : c ≠ block p l) (ha : a ∈ c.cells)
    (hlink : Outside a c.addr) : clearPageHeader (hlistDel s.mem p) p a = s.mem a := by
  have hl := h.level_lt hp
  refine h.unlink_mem_of_outside hp (h.head_ne hl hc ha).symm ?_ ?_
  · intro y hy
    by_cases hcy : c = block y l
    · subst hcy
      exact hlink
    · exact h.outside_of_mem hc (mem_all_of_free hy) hcy ha
  · by_contra hcon
    refine hne (h.tiling.eq_of_mem hc (mem_all_of_free hp) ha ?_)
    refine h.offset_mem (b := block p l) (mem_all_of_free hp) ?_ ?_ <;> simp only [block] <;> omega

/-- A free block that is unlinked is in the hands of the operation, and all of
its bytes are zero. -/
theorem unlink (h : Inv d s fl live floats M) (hp : p ∈ fl l) :
    Inv d { s with mem := clearPageHeader (hlistDel s.mem p) p }
      (Function.update fl l ((fl l).erase p)) live (floats ∪ {block p l}) M := by
  have hl := h.level_lt hp
  have hpall : block p l ∈ freeBlocks fl ∪ live ∪ floats := mem_all_of_free hp
  have hpf : block p l ∈ freeBlocks fl := mem_freeBlocks.mpr hp
  have hfb := freeBlocks_erase (p := p) (h.nodup l)
  have hmem : ∀ k q, q ∈ Function.update fl l ((fl l).erase p) k →
      q ∈ fl k ∧ block q k ≠ block p l := by
    intro k q hq
    have : block q k ∈ freeBlocks fl \ {block p l} := hfb ▸ mem_freeBlocks.mpr hq
    exact ⟨mem_freeBlocks.mp this.1, this.2⟩
  refine ⟨?_, ?_, ?_, ?_, ?_, ?_, ?_, ?_, ?_, ?_, ?_, h.bit_live, h.bit_out, h.range⟩
  · intro k hk
    by_cases hkl : k = l
    · subst hkl
      rw [Function.update_self]
      obtain ⟨as, bs, hsplit⟩ := List.append_of_mem hp
      have hnd := h.nodup k
      have hc := h.chain k hk
      have hap := h.pairwise_apart k
      rw [hsplit] at hnd hc hap
      have hpas : p ∉ as := by
        intro hpas
        exact List.disjoint_of_nodup_append hnd hpas (by simp)
      have herase : (fl k).erase p = as ++ bs := by
        rw [hsplit, List.erase_append_right _ hpas, List.erase_cons_head]
      rw [herase]
      have hout : ∀ y ∈ as ++ p :: bs, Outside (d.head k) y := by
        intro y hy
        rw [← hsplit] at hy
        exact h.head_outside (b := block y k) hk (mem_all_of_free hy)
      have hdel := hlistDel_chain hc hap hout
      refine hdel.congr (Memory.zero_of_notMem _ ?_) ?_
      · by_contra hcon
        refine h.head_ne (a := d.head k) hk hpall ?_ rfl
        refine h.offset_mem hpall ?_ ?_ <;> simp only [block] <;> omega
      · intro y hy
        have hy' : y ∈ fl k := by
          rw [hsplit]
          simp only [List.mem_append, List.mem_cons] at hy ⊢
          tauto
        have hyp : y ≠ p := by
          rintro rfl
          rw [List.nodup_append, List.nodup_cons] at hnd
          rcases List.mem_append.mp hy with hy | hy
          · exact hpas hy
          · exact hnd.2.1.1 hy
        have h1 := h.dvd_addr (b := block y k) (mem_all_of_free hy')
        have h2 := h.dvd_addr hpall
        simp only [block] at h1 h2
        constructor <;> exact Memory.zero_of_notMem _ (by omega)
    · rw [Function.update_of_ne hkl]
      refine (h.chain k hk).congr ?_ fun x hx => ?_
      · refine h.unlink_mem_of_outside hp ?_ ?_ ?_
        · simp only [DirectMap.head]
          omega
        · intro y hy
          exact h.head_outside (b := block y l) hk (mem_all_of_free hy)
        · by_contra hcon
          refine h.head_ne (a := d.head k) hk hpall ?_ rfl
          refine h.offset_mem hpall ?_ ?_ <;> simp only [block] <;> omega
      · have hx' : block x k ∈ freeBlocks fl ∪ live ∪ floats := mem_all_of_free hx
        have hne : ∀ y ∈ fl l, block x k ≠ block y l := by
          intro y _
          simp [block_inj, hkl]
        have hcell : ∀ j < 64, clearPageHeader (hlistDel s.mem p) p (x + j) = s.mem (x + j) := by
          intro j hj
          have hxj := h.mem_cells_offset hx j hj
          refine h.unlink_mem_of_outside hp (h.head_ne hl hx' hxj).symm ?_ ?_
          · intro y hy
            exact h.outside_of_mem hx' (mem_all_of_free hy) (hne y hy) hxj
          · by_contra hcon
            refine hne p hp (h.tiling.eq_of_mem hx' hpall hxj ?_)
            refine h.offset_mem hpall ?_ ?_ <;> simp only [block] <;> omega
        exact ⟨hcell 0 (by omega), hcell 8 (by omega)⟩
  · intro k hk
    rw [Function.update_of_ne (by omega)]
    exact h.empty k hk
  · intro k
    by_cases hkl : k = l
    · subst hkl
      rw [Function.update_self]
      exact (h.nodup k).erase p
    · rw [Function.update_of_ne hkl]
      exact h.nodup k
  · intro k q hq
    obtain ⟨hq', hne⟩ := hmem k q hq
    rw [← h.header k q hq']
    exact h.unlink_mem_of_ne hp (mem_all_of_free hq') hne (h.mem_cells_offset hq' 16 (by omega))
      ⟨by simp [block], by simp [block]⟩
  · intro k q hq a ha hle
    obtain ⟨hq', hne⟩ := hmem k q hq
    rw [← h.zero k q hq' a ha hle]
    exact h.unlink_mem_of_ne hp (mem_all_of_free hq') hne ha
      ⟨by simp only [block]; omega, by simp only [block]; omega⟩
  · have : freeBlocks (Function.update fl l ((fl l).erase p)) ∪ live ∪ (floats ∪ {block p l}) =
        freeBlocks fl ∪ live ∪ floats := by
      rw [hfb]
      ext b
      simp only [Set.mem_union, Set.mem_sdiff, Set.mem_singleton_iff]
      by_cases hb : b = block p l
      · subst hb
        simp [hpf]
      · simp [hb]
    rw [this]
    exact h.tiling
  · rw [hfb]
    exact h.free_live.mono_left Set.sdiff_subset
  · rw [hfb, Set.disjoint_union_right]
    exact ⟨h.free_floats.mono_left Set.sdiff_subset, Set.disjoint_sdiff_left⟩
  · rw [Set.disjoint_union_right]
    refine ⟨h.live_floats, ?_⟩
    rw [Set.disjoint_singleton_right]
    exact fun hlive => Set.disjoint_left.mp h.free_live hpf hlive
  · rintro b (hb | hb | rfl)
    · exact h.level b (Or.inl hb)
    · exact h.level b (Or.inr hb)
    · exact ⟨l, hl, rfl⟩
  · intro k q hq
    exact h.bit_free k q (hmem k q hq).1

/-- The bytes of an unlinked block are all zero. -/
theorem unlink_zero (h : Inv d s fl live floats M) (hp : p ∈ fl l) :
    ∀ a ∈ (block p l).cells, clearPageHeader (hlistDel s.mem p) p a = 0 := by
  intro a ha
  by_cases hlt : a < p + 24
  · exact Memory.zero_of_mem _ ha.1 hlt
  · rw [← h.zero l p hp a ha (by omega)]
    refine h.unlink_mem_of_outside hp (h.head_ne (h.level_lt hp) (mem_all_of_free hp) ha).symm
      ?_ (by omega)
    intro y hy
    by_cases hyp : y = p
    · subst hyp
      exact ⟨by omega, by omega⟩
    · exact h.outside_of_mem (b := block p l) (c := block y l) (mem_all_of_free hp)
        (mem_all_of_free hy) (by simpa [block_inj] using Ne.symm hyp) ha

/-- The memory after the level is written and the block is linked. -/
abbrev linkedMem (d : DirectMap) (s : Phys) (p l : ℕ) : Memory :=
  hlistAdd (setPageLevel s.mem p l) (d.head l) p

theorem setPageLevel_of_ne (m : Memory) (l : ℕ) (ha : a ≠ p + 16) :
    setPageLevel m p l a = m a := Memory.store_of_ne _ _ ha

theorem setPageLevel_self {m : Memory} (hz : m (p + 16) = 0) (hl : l < 16) :
    setPageLevel m p l (p + 16) = l := by
  simp only [setPageLevel, Memory.store_self, hz]
  omega

theorem chain_setPageLevel (h : Inv d s fl live floats M) (hb : block p l ∈ floats)
    (hk : k < 16) : Chain (setPageLevel s.mem p l) (d.head k) (fl k) := by
  have hp : block p l ∈ freeBlocks fl ∪ live ∪ floats := Or.inr hb
  have h16 : p + 16 ∈ (block p l).cells :=
    h.offset_mem hp (by simp [block]) (by simp [block])
  refine (h.chain k hk).congr ?_ fun x hx => ?_
  · exact setPageLevel_of_ne _ _ (h.head_ne hk hp h16)
  · have hx' : block x k ∈ freeBlocks fl ∪ live ∪ floats := mem_all_of_free hx
    have hne := h.free_ne hx (Or.inr hb)
    exact ⟨setPageLevel_of_ne _ _ (h.ne_of_mem hx' hp hne (h.mem_cells_offset hx 0 (by omega)) h16),
      setPageLevel_of_ne _ _ (h.ne_of_mem hx' hp hne (h.mem_cells_offset hx 8 (by omega)) h16)⟩

/-- Linking a block leaves the words alone that are not in its header and are not
link words of the list. -/
theorem link_mem_of_outside (h : Inv d s fl live floats M) (hb : block p l ∈ floats)
    (hl : l < 16) (ha : a ≠ d.head l) (hout : ∀ y ∈ fl l, a ≠ y + 8)
    (hpa : a ≠ p ∧ a ≠ p + 8 ∧ a ≠ p + 16) : linkedMem d s p l a = s.mem a := by
  rw [linkedMem, hlistAdd_frame (h.chain_setPageLevel hb hl) ha ⟨hpa.1, hpa.2.1⟩ hout]
  exact setPageLevel_of_ne _ _ hpa.2.2

theorem link_frame (h : Inv d s fl live floats M) (hb : block p l ∈ floats) (hl : l < 16) :
    Frame d (freeCells fl ∪ (block p l).cells) s.mem (linkedMem d s p l) := by
  intro a hfree ha
  have hp : block p l ∈ freeBlocks fl ∪ live ∪ floats := Or.inr hb
  have hoff : ∀ j < 64, a ≠ p + j := by
    rintro j hj rfl
    exact hfree (Or.inr (h.offset_mem hp (by simp [block]) (by simp [block, hj])))
  refine h.link_mem_of_outside hb hl (ha l hl) ?_
    ⟨hoff 0 (by omega), hoff 8 (by omega), hoff 16 (by omega)⟩
  rintro y hy rfl
  exact hfree (Or.inl (mem_freeCells.mpr ⟨l, y, hy, h.mem_cells_offset hy 8 (by omega)⟩))

/-- The words of the other blocks, apart from the link words of free blocks,
survive the linking. -/
theorem link_mem_of_ne (h : Inv d s fl live floats M) (hb : block p l ∈ floats) (hl : l < 16)
    (hc : c ∈ freeBlocks fl ∪ live ∪ floats) (hne : c ≠ block p l) (ha : a ∈ c.cells)
    (hlink : Outside a c.addr) : linkedMem d s p l a = s.mem a := by
  have hp : block p l ∈ freeBlocks fl ∪ live ∪ floats := Or.inr hb
  have hoff : ∀ j < 64, a ≠ p + j := fun j hj =>
    h.ne_of_mem hc hp hne ha (h.offset_mem hp (by simp [block]) (by simp [block, hj]))
  refine h.link_mem_of_outside hb hl (h.head_ne hl hc ha).symm ?_
    ⟨hoff 0 (by omega), hoff 8 (by omega), hoff 16 (by omega)⟩
  intro y hy
  by_cases hcy : c = block y l
  · subst hcy
    exact hlink.2
  · exact (h.outside_of_mem hc (mem_all_of_free hy) hcy ha).2

theorem chain_link_ne (h : Inv d s fl live floats M) (hb : block p l ∈ floats) (hl : l < 16)
    (hk : k < 16) (hkl : k ≠ l) : Chain (linkedMem d s p l) (d.head k) (fl k) := by
  have hp : block p l ∈ freeBlocks fl ∪ live ∪ floats := Or.inr hb
  have hhead : ∀ j < 64, d.head k ≠ p + j := fun j hj =>
    h.head_ne hk hp (h.offset_mem hp (by simp [block]) (by simp [block, hj]))
  refine (h.chain k hk).congr ?_ fun x hx => ?_
  · refine h.link_mem_of_outside hb hl ?_ ?_
      ⟨hhead 0 (by omega), hhead 8 (by omega), hhead 16 (by omega)⟩
    · simp only [DirectMap.head]
      omega
    · intro y hy
      exact (h.head_outside (b := block y l) hk (mem_all_of_free hy)).2
  · have hx' : block x k ∈ freeBlocks fl ∪ live ∪ floats := mem_all_of_free hx
    have hxp : block x k ≠ block p l := by simp [block_inj, hkl]
    have hcell : ∀ j < 64, linkedMem d s p l (x + j) = s.mem (x + j) := by
      intro j hj
      have hxj := h.mem_cells_offset hx j hj
      have hoff : ∀ i < 64, x + j ≠ p + i := fun i hi =>
        h.ne_of_mem hx' hp hxp hxj (h.offset_mem hp (by simp [block]) (by simp [block, hi]))
      refine h.link_mem_of_outside hb hl (h.head_ne hl hx' hxj).symm ?_
        ⟨hoff 0 (by omega), hoff 8 (by omega), hoff 16 (by omega)⟩
      intro y hy
      exact (h.outside_of_mem hx' (mem_all_of_free hy) (by simp [block_inj, hkl]) hxj).2
    exact ⟨hcell 0 (by omega), hcell 8 (by omega)⟩

theorem chain_link_self (h : Inv d s fl live floats M) (hb : block p l ∈ floats) (hl : l < 16) :
    Chain (linkedMem d s p l) (d.head l) (p :: fl l) := by
  have hp : block p l ∈ freeBlocks fl ∪ live ∪ floats := Or.inr hb
  refine hlistAdd_chain (h.chain_setPageLevel hb hl) ?_ (h.head_outside (b := block p l) hl hp) ?_
    (h.pairwise_apart l) ?_
  · have := (h.cells_range hp (block p l).addr_mem_cells).1
    have := d.base_pos
    simp only [block] at *
    omega
  · intro y hy
    exact h.apart (b := block p l) (c := block y l) hp (mem_all_of_free hy)
      (h.free_ne hy (Or.inr hb)).symm
  · intro y hy
    exact h.head_outside (b := block y l) hl (mem_all_of_free hy)

theorem header_link_self (h : Inv d s fl live floats M) (hb : block p l ∈ floats) (hl : l < 16)
    (hz : s.mem (p + 16) = 0) : linkedMem d s p l (p + 16) = l := by
  have hp : block p l ∈ freeBlocks fl ∪ live ∪ floats := Or.inr hb
  have h16 : p + 16 ∈ (block p l).cells := h.offset_mem hp (by simp [block]) (by simp [block])
  rw [linkedMem, hlistAdd_frame (h.chain_setPageLevel hb hl) (h.head_ne hl hp h16).symm
    ⟨by omega, by omega⟩]
  · exact setPageLevel_self hz hl
  · intro y hy
    exact (h.outside_of_mem hp (mem_all_of_free hy) (h.free_ne hy (Or.inr hb)).symm h16).2

theorem base_le_addr (h : Inv d s fl live floats M)
    (hb : b ∈ freeBlocks fl ∪ live ∪ floats) : d.base ≤ b.addr :=
  (h.cells_range hb b.addr_mem_cells).1

/-- Setting the bit of a block does not change the bit of another address that is
a multiple of 64. -/
theorem bit_setFree_of_ne (h : Inv d s fl live floats M)
    (hb : b ∈ freeBlocks fl ∪ live ∪ floats) (ha : 64 ∣ a) (hle : d.base ≤ a)
    (hne : a ≠ b.addr) :
    buddyIsBlockFree d (buddySetBlockFree d s b.addr) a = buddyIsBlockFree d s a := by
  have : unit d a ≠ unit d b.addr := fun hu =>
    hne (unit_inj d (h.base_le_addr hb) hle (h.dvd_addr hb) ha hu)
  simp [buddyIsBlockFree_setFree, this]

theorem bit_setAllocated_of_ne (h : Inv d s fl live floats M)
    (hb : b ∈ freeBlocks fl ∪ live ∪ floats) (ha : 64 ∣ a) (hle : d.base ≤ a)
    (hne : a ≠ b.addr) :
    buddyIsBlockFree d (buddySetBlockAllocated d s b.addr) a = buddyIsBlockFree d s a := by
  have : unit d a ≠ unit d b.addr := fun hu =>
    hne (unit_inj d (h.base_le_addr hb) hle (h.dvd_addr hb) ha hu)
  simp [buddyIsBlockFree_setAllocated, this]

/-- The answer of `buddyIsBlockFree` depends on the bitmap only. -/
theorem buddyIsBlockFree_congr {s s' : Phys} (h : s.bitmap = s'.bitmap) (a : ℕ) :
    buddyIsBlockFree d s a = buddyIsBlockFree d s' a := by
  simp [buddyIsBlockFree, h]

/-- A block full of zero bytes that the operation has in its hands becomes a free
block. -/
theorem link (h : Inv d s fl live floats M) (hb : block p l ∈ floats) (hl : l < 16)
    (hz : ∀ a ∈ (block p l).cells, s.mem a = 0) :
    Inv d (buddySetBlockFree d { s with mem := linkedMem d s p l } p)
      (Function.update fl l (p :: fl l)) live (floats \ {block p l}) M := by
  have hp : block p l ∈ freeBlocks fl ∪ live ∪ floats := Or.inr hb
  have hfc := freeBlocks_cons fl p l
  have hnot : p ∉ fl l := fun hpl => h.free_ne hpl (Or.inr hb) rfl
  have hbit : ∀ a, 64 ∣ a → d.base ≤ a → a ≠ p →
      buddyIsBlockFree d (buddySetBlockFree d { s with mem := linkedMem d s p l } p) a =
        buddyIsBlockFree d s a := fun a ha hle hne =>
    (buddyIsBlockFree_congr rfl a).trans (h.bit_setFree_of_ne (b := block p l) hp ha hle hne)
  have hmem : ∀ k q, q ∈ Function.update fl l (p :: fl l) k →
      q ∈ fl k ∨ (q = p ∧ k = l) := by
    intro k q hq
    have : block q k ∈ freeBlocks fl ∪ {block p l} := hfc ▸ mem_freeBlocks.mpr hq
    rcases this with hf | he
    · exact Or.inl (mem_freeBlocks.mp hf)
    · exact Or.inr (block_inj.mp he)
  refine ⟨?_, ?_, ?_, ?_, ?_, ?_, ?_, ?_, ?_, ?_, ?_, ?_, ?_, h.range⟩
  · intro k hk
    by_cases hkl : k = l
    · subst hkl
      rw [Function.update_self]
      exact h.chain_link_self hb hk
    · rw [Function.update_of_ne hkl]
      exact h.chain_link_ne hb hl hk hkl
  · intro k hk
    rw [Function.update_of_ne (by omega)]
    exact h.empty k hk
  · intro k
    by_cases hkl : k = l
    · subst hkl
      rw [Function.update_self]
      exact List.nodup_cons.mpr ⟨hnot, h.nodup k⟩
    · rw [Function.update_of_ne hkl]
      exact h.nodup k
  · intro k q hq
    rcases hmem k q hq with hq' | ⟨rfl, rfl⟩
    · rw [← h.header k q hq']
      exact h.link_mem_of_ne hb hl (mem_all_of_free hq') (h.free_ne hq' (Or.inr hb))
        (h.mem_cells_offset hq' 16 (by omega)) ⟨by simp [block], by simp [block]⟩
    · exact h.header_link_self hb hl
        (hz _ (h.offset_mem hp (by simp [block]) (by simp [block])))
  · intro k q hq a ha hle
    rcases hmem k q hq with hq' | ⟨rfl, rfl⟩
    · rw [← h.zero k q hq' a ha hle]
      exact h.link_mem_of_ne hb hl (mem_all_of_free hq') (h.free_ne hq' (Or.inr hb)) ha
        ⟨by simp only [block]; omega, by simp only [block]; omega⟩
    · rw [← hz a ha]
      refine h.link_mem_of_outside hb hl (h.head_ne hl hp ha).symm ?_
        ⟨by omega, by omega, by omega⟩
      intro y hy
      exact (h.outside_of_mem hp (mem_all_of_free hy) (h.free_ne hy (Or.inr hb)).symm ha).2
  · have : freeBlocks (Function.update fl l (p :: fl l)) ∪ live ∪ (floats \ {block p l}) =
        freeBlocks fl ∪ live ∪ floats := by
      rw [hfc]
      ext b
      simp only [Set.mem_union, Set.mem_sdiff, Set.mem_singleton_iff]
      by_cases hbp : b = block p l
      · subst hbp
        simp [hb]
      · simp [hbp]
    rw [this]
    exact h.tiling
  · rw [hfc, Set.disjoint_union_left]
    refine ⟨h.free_live, ?_⟩
    rw [Set.disjoint_singleton_left]
    exact fun hlive => Set.disjoint_left.mp h.live_floats hlive hb
  · rw [hfc, Set.disjoint_union_left]
    exact ⟨h.free_floats.mono_right Set.sdiff_subset, Set.disjoint_sdiff_right⟩
  · exact h.live_floats.mono_right Set.sdiff_subset
  · rintro b (hb' | hb')
    · exact h.level b (Or.inl hb')
    · exact h.level b (Or.inr hb'.1)
  · intro k q hq
    by_cases hqp : q = p
    · subst hqp
      simp [buddyIsBlockFree_setFree]
    · rcases hmem k q hq with hq' | ⟨rfl, -⟩
      · have hqk : block q k ∈ freeBlocks fl ∪ live ∪ floats := mem_all_of_free hq'
        rw [hbit q (h.dvd_addr hqk) (h.base_le_addr hqk) hqp]
        exact h.bit_free k q hq'
      · exact absurd rfl hqp
  · intro c hc
    have hc' : c ∈ freeBlocks fl ∪ live ∪ floats := Or.inl (Or.inr hc)
    rw [hbit c.addr (h.dvd_addr hc') (h.base_le_addr hc') ?_]
    · exact h.bit_live c hc
    · intro he
      have : c = block p l := h.tiling.eq_of_addr hc' hp he
      exact Set.disjoint_left.mp h.live_floats hc (this ▸ hb)
  · intro a ha hle haM
    rw [hbit a ha hle ?_]
    · exact h.bit_out a ha hle haM
    · rintro rfl
      exact haM (h.tiling.subset hp (block a l).addr_mem_cells)

/-- Clearing the bit of a block in the hands of the operation makes it live. -/
theorem setAllocated (h : Inv d s fl live floats M) (hb : b ∈ floats) :
    Inv d (buddySetBlockAllocated d s b.addr) fl (live ∪ {b}) (floats \ {b}) M := by
  have hball : b ∈ freeBlocks fl ∪ live ∪ floats := Or.inr hb
  refine ⟨h.chain, h.empty, h.nodup, h.header, h.zero, ?_, ?_, ?_, ?_, ?_, ?_, ?_, ?_, h.range⟩
  · have : freeBlocks fl ∪ (live ∪ {b}) ∪ (floats \ {b}) = freeBlocks fl ∪ live ∪ floats := by
      ext c
      simp only [Set.mem_union, Set.mem_sdiff, Set.mem_singleton_iff]
      by_cases hc : c = b
      · subst hc
        simp [hb]
      · simp [hc]
    rw [this]
    exact h.tiling
  · rw [Set.disjoint_union_right]
    refine ⟨h.free_live, ?_⟩
    rw [Set.disjoint_singleton_right]
    exact fun hf => Set.disjoint_left.mp h.free_floats hf hb
  · exact h.free_floats.mono_right Set.sdiff_subset
  · rw [Set.disjoint_union_left]
    exact ⟨h.live_floats.mono_right Set.sdiff_subset, Set.disjoint_sdiff_right⟩
  · rintro c ((hc | rfl) | hc)
    · exact h.level c (Or.inl hc)
    · exact h.level c (Or.inr hb)
    · exact h.level c (Or.inr hc.1)
  · intro k q hq
    have hqk : block q k ∈ freeBlocks fl ∪ live ∪ floats := mem_all_of_free hq
    change buddyIsBlockFree d _ (block q k).addr = true
    rw [h.bit_setAllocated_of_ne hball (h.dvd_addr hqk) (h.base_le_addr hqk) ?_]
    · exact h.bit_free k q hq
    · intro he
      exact h.free_ne hq (Or.inr hb) (h.tiling.eq_of_addr hqk hball he)
  · rintro c (hc | rfl)
    · have hc' : c ∈ freeBlocks fl ∪ live ∪ floats := Or.inl (Or.inr hc)
      rw [h.bit_setAllocated_of_ne hball (h.dvd_addr hc') (h.base_le_addr hc') ?_]
      · exact h.bit_live c hc
      · intro he
        have : c = b := h.tiling.eq_of_addr hc' hball he
        exact Set.disjoint_left.mp h.live_floats hc (this ▸ hb)
    · simp [buddyIsBlockFree_setAllocated]
  · intro a ha hle haM
    rw [h.bit_setAllocated_of_ne hball ha hle ?_]
    · exact h.bit_out a ha hle haM
    · rintro rfl
      exact haM (h.tiling.subset hball b.addr_mem_cells)

/-- A live block can be taken back into the hands of the operation. -/
theorem takeLive (h : Inv d s fl live floats M) (hb : b ∈ live) :
    Inv d s fl (live \ {b}) (floats ∪ {b}) M := by
  have hball : b ∈ freeBlocks fl ∪ live ∪ floats := Or.inl (Or.inr hb)
  refine ⟨h.chain, h.empty, h.nodup, h.header, h.zero, ?_, ?_, ?_, ?_, ?_, h.bit_free, ?_,
    h.bit_out, h.range⟩
  · have : freeBlocks fl ∪ (live \ {b}) ∪ (floats ∪ {b}) = freeBlocks fl ∪ live ∪ floats := by
      ext c
      simp only [Set.mem_union, Set.mem_sdiff, Set.mem_singleton_iff]
      by_cases hc : c = b
      · subst hc
        simp [hb]
      · simp [hc]
    rw [this]
    exact h.tiling
  · exact h.free_live.mono_right Set.sdiff_subset
  · rw [Set.disjoint_union_right]
    refine ⟨h.free_floats, ?_⟩
    rw [Set.disjoint_singleton_right]
    exact fun hf => Set.disjoint_left.mp h.free_live hf hb
  · rw [Set.disjoint_union_right]
    exact ⟨h.live_floats.mono_left Set.sdiff_subset, Set.disjoint_sdiff_left⟩
  · rintro c (hc | hc | rfl)
    · exact h.level c (Or.inl hc.1)
    · exact h.level c (Or.inr hc)
    · exact h.level c (Or.inl hb)
  · exact fun c hc => h.bit_live c hc.1

/-- The bit of a block in the hands of the operation may be set. -/
theorem setFree (h : Inv d s fl live floats M) (hb : b ∈ floats) :
    Inv d (buddySetBlockFree d s b.addr) fl live floats M := by
  have hball : b ∈ freeBlocks fl ∪ live ∪ floats := Or.inr hb
  refine ⟨h.chain, h.empty, h.nodup, h.header, h.zero, h.tiling, h.free_live, h.free_floats,
    h.live_floats, h.level, ?_, ?_, ?_, h.range⟩
  · intro k q hq
    simp [buddyIsBlockFree_setFree, h.bit_free k q hq]
  · intro c hc
    have hc' : c ∈ freeBlocks fl ∪ live ∪ floats := Or.inl (Or.inr hc)
    rw [h.bit_setFree_of_ne hball (h.dvd_addr hc') (h.base_le_addr hc') ?_]
    · exact h.bit_live c hc
    · intro he
      have : c = b := h.tiling.eq_of_addr hc' hball he
      exact Set.disjoint_left.mp h.live_floats hc (this ▸ hb)
  · intro a ha hle haM
    rw [h.bit_setFree_of_ne hball ha hle ?_]
    · exact h.bit_out a ha hle haM
    · rintro rfl
      exact haM (h.tiling.subset hball b.addr_mem_cells)

/-- Blocks in the hands of the operation may be replaced by others that tile the
same addresses. -/
theorem replaceFloats (h : Inv d s fl live floats M) {floats' : Set Block}
    (ht : Tiling (freeBlocks fl ∪ live ∪ floats') M)
    (hd : ∀ b ∈ floats', b ∉ freeBlocks fl ∪ live)
    (hl : ∀ b ∈ floats', ∃ l < 16, b = block b.addr l) : Inv d s fl live floats' M := by
  refine ⟨h.chain, h.empty, h.nodup, h.header, h.zero, ht, h.free_live, ?_, ?_, ?_, h.bit_free,
    h.bit_live, h.bit_out, h.range⟩
  · rw [Set.disjoint_right]
    exact fun b hb hf => hd b hb (Or.inl hf)
  · rw [Set.disjoint_right]
    exact fun b hb hf => hd b hb (Or.inr hf)
  · rintro b (hb | hb)
    · exact h.level b (Or.inl hb)
    · exact hl b hb

/-- A block of memory that was not added yet can be taken into the hands of the
operation. -/
theorem addFloat (h : Inv d s fl live floats M) (hal : b.Aligned) (hd : Disjoint b.cells M)
    (hr : b.cells ⊆ d.range) (hl : ∃ l < 16, b = block b.addr l) :
    Inv d s fl live (floats ∪ {b}) (M ∪ b.cells) := by
  have hnot : b ∉ freeBlocks fl ∪ live ∪ floats := fun hb =>
    Set.disjoint_left.mp hd b.addr_mem_cells (h.tiling.subset hb b.addr_mem_cells)
  refine ⟨h.chain, h.empty, h.nodup, h.header, h.zero, ?_, h.free_live, ?_, ?_, ?_, h.bit_free,
    h.bit_live, ?_, ?_⟩
  · rw [← Set.union_assoc]
    exact h.tiling.insert hal hd
  · rw [Set.disjoint_union_right, Set.disjoint_singleton_right]
    exact ⟨h.free_floats, fun hf => hnot (Or.inl (Or.inl hf))⟩
  · rw [Set.disjoint_union_right, Set.disjoint_singleton_right]
    exact ⟨h.live_floats, fun hf => hnot (Or.inl (Or.inr hf))⟩
  · rintro c (hc | hc | rfl)
    · exact h.level c (Or.inl hc)
    · exact h.level c (Or.inr hc)
    · exact hl
  · intro a ha hle haM
    exact h.bit_out a ha hle fun haM' => haM (Or.inl haM')
  · exact Set.union_subset h.range hr

end Inv

end Phys

end Tomato
