import Tomato.Mem.Phys.Bitmap

/-!
# The invariant of the physical allocator

The memory that was added, `M`, is tiled by three kinds of blocks: the free
blocks, which are exactly the nodes of the lists `fl` that the list heads point
to, the live blocks that the clients own, and the blocks that an operation has in
its hands. `Inv` adds what the code relies on about them: the header and the zero
bytes of a free block, and the meaning of the bit at the start of a block. The
bits inside a block say nothing, since a merged block keeps the bits of its
pieces.

An operation of the allocator is a sequence of the steps below, each of which
moves one block between the three kinds.
-/

namespace Tomato

open Blocks

/-- The block of the level at the pointer. -/
def block (p level : ℕ) : Block := ⟨p, level + 6⟩

/-- The nodes of the list of every level. -/
abbrev FreeLists := ℕ → List ℕ

def freeBlocks (fl : FreeLists) : Set Block := {b | ∃ l, ∃ p ∈ fl l, b = block p l}

theorem block_inj {p q l k : ℕ} : block p l = block q k ↔ p = q ∧ l = k := by
  simp [block]

theorem mem_freeBlocks {fl : FreeLists} {p l : ℕ} : block p l ∈ freeBlocks fl ↔ p ∈ fl l := by
  constructor
  · rintro ⟨k, q, hq, h⟩
    obtain ⟨rfl, rfl⟩ := block_inj.mp h
    exact hq
  · exact fun h => ⟨l, p, h, rfl⟩

theorem freeBlocks_erase {fl : FreeLists} {p l : ℕ} (hn : (fl l).Nodup) :
    freeBlocks (Function.update fl l ((fl l).erase p)) = freeBlocks fl \ {block p l} := by
  ext b
  constructor
  · rintro ⟨k, q, hq, rfl⟩
    by_cases hk : k = l
    · subst hk
      simp only [Function.update_self, hn.mem_erase_iff] at hq
      refine ⟨mem_freeBlocks.mpr hq.2, ?_⟩
      simp [block_inj, hq.1]
    · simp only [Function.update_of_ne hk] at hq
      refine ⟨mem_freeBlocks.mpr hq, ?_⟩
      simp [block_inj, hk]
  · rintro ⟨⟨k, q, hq, rfl⟩, hne⟩
    simp only [Set.mem_singleton_iff, block_inj, not_and_or] at hne
    rw [mem_freeBlocks]
    by_cases hk : k = l
    · subst hk
      simp only [Function.update_self, hn.mem_erase_iff]
      exact ⟨by simpa using hne, hq⟩
    · simpa [Function.update_of_ne hk] using hq

theorem freeBlocks_cons (fl : FreeLists) (p l : ℕ) :
    freeBlocks (Function.update fl l (p :: fl l)) = freeBlocks fl ∪ {block p l} := by
  ext b
  constructor
  · rintro ⟨k, q, hq, rfl⟩
    by_cases hk : k = l
    · subst hk
      simp only [Function.update_self, List.mem_cons] at hq
      rcases hq with rfl | hq
      · simp
      · exact Or.inl (mem_freeBlocks.mpr hq)
    · simp only [Function.update_of_ne hk] at hq
      exact Or.inl (mem_freeBlocks.mpr hq)
  · rintro (⟨k, q, hq, rfl⟩ | rfl)
    · rw [mem_freeBlocks]
      by_cases hk : k = l
      · subst hk
        simp [hq]
      · simpa [Function.update_of_ne hk] using hq
    · rw [mem_freeBlocks]
      simp

namespace Phys

/-- The free blocks are the nodes of `fl`, and together with the blocks `live`
and `floats` they tile `M`. -/
structure Inv (d : DirectMap) (s : Phys) (fl : FreeLists) (live floats : Set Block)
    (M : Set ℕ) : Prop where
  chain : ∀ l < 16, Chain s.mem (d.head l) (fl l)
  empty : ∀ l, 16 ≤ l → fl l = []
  nodup : ∀ l, (fl l).Nodup
  header : ∀ l, ∀ p ∈ fl l, s.mem (p + 16) = l
  zero : ∀ l, ∀ p ∈ fl l, ∀ a ∈ (block p l).cells, p + 24 ≤ a → s.mem a = 0
  tiling : Tiling (freeBlocks fl ∪ live ∪ floats) M
  free_live : Disjoint (freeBlocks fl) live
  free_floats : Disjoint (freeBlocks fl) floats
  live_floats : Disjoint live floats
  level : ∀ b ∈ live ∪ floats, ∃ l < 16, b = block b.addr l
  bit_free : ∀ l, ∀ p ∈ fl l, buddyIsBlockFree d s p = true
  bit_live : ∀ b ∈ live, buddyIsBlockFree d s b.addr = false
  bit_out : ∀ a, 64 ∣ a → d.base ≤ a → a ∉ M → buddyIsBlockFree d s a = false
  range : M ⊆ d.range

namespace Inv

variable {d : DirectMap} {s : Phys} {fl : FreeLists} {live floats : Set Block} {M : Set ℕ}
  {p q l k a : ℕ} {b c : Block}

theorem level_lt (h : Inv d s fl live floats M) (hp : p ∈ fl l) : l < 16 := by
  by_contra hl
  rw [h.empty l (by omega)] at hp
  simp at hp

theorem mem_all_of_free (hp : p ∈ fl l) : block p l ∈ freeBlocks fl ∪ live ∪ floats :=
  Or.inl (Or.inl (mem_freeBlocks.mpr hp))

theorem exists_level (h : Inv d s fl live floats M)
    (hb : b ∈ freeBlocks fl ∪ live ∪ floats) : ∃ l < 16, b = block b.addr l := by
  rcases hb with (⟨l, p, hp, rfl⟩ | hb) | hb
  · exact ⟨l, h.level_lt hp, rfl⟩
  · exact h.level b (Or.inl hb)
  · exact h.level b (Or.inr hb)

theorem dvd_addr (h : Inv d s fl live floats M)
    (hb : b ∈ freeBlocks fl ∪ live ∪ floats) : 64 ∣ b.addr := by
  obtain ⟨l, -, hl⟩ := h.exists_level hb
  have hal := h.tiling.aligned b hb
  rw [hl] at hal
  have : (2 : ℕ) ^ 6 ∣ 2 ^ (l + 6) := pow_dvd_pow 2 (by omega)
  exact this.trans hal

theorem cells_range (h : Inv d s fl live floats M)
    (hb : b ∈ freeBlocks fl ∪ live ∪ floats) (ha : a ∈ b.cells) :
    d.base ≤ a ∧ a < d.base + d.pageCount * 4096 :=
  h.range (h.tiling.subset hb ha)

/-- The first 64 bytes of a block are inside it. -/
theorem offset_mem (h : Inv d s fl live floats M)
    (hb : b ∈ freeBlocks fl ∪ live ∪ floats) (ha : b.addr ≤ a) (ha' : a < b.addr + 64) :
    a ∈ b.cells := by
  obtain ⟨l, -, hl⟩ := h.exists_level hb
  rw [hl, Block.mem_cells]
  have : (2 : ℕ) ^ 6 ≤ 2 ^ (l + 6) := Nat.pow_le_pow_right (by omega) (by omega)
  simp only [block] at *
  omega

theorem head_notMem_range (hl : l < 16) : ¬ (d.base ≤ d.head l ∧ d.head l <
    d.base + d.pageCount * 4096) := by
  have := d.levels_outside
  simp only [DirectMap.head]
  omega

/-- A list head is not inside a block. -/
theorem head_ne (h : Inv d s fl live floats M) (hl : l < 16)
    (hb : b ∈ freeBlocks fl ∪ live ∪ floats) (ha : a ∈ b.cells) : d.head l ≠ a := by
  rintro rfl
  exact head_notMem_range hl (h.cells_range hb ha)

theorem head_outside (h : Inv d s fl live floats M) (hl : l < 16)
    (hb : b ∈ freeBlocks fl ∪ live ∪ floats) : Outside (d.head l) b.addr :=
  ⟨h.head_ne hl hb (h.offset_mem hb le_rfl (by omega)),
    h.head_ne hl hb (h.offset_mem hb (by omega) (by omega))⟩

theorem apart (h : Inv d s fl live floats M) (hb : b ∈ freeBlocks fl ∪ live ∪ floats)
    (hc : c ∈ freeBlocks fl ∪ live ∪ floats) (hne : b ≠ c) : Apart b.addr c.addr := by
  have h1 := h.dvd_addr hb
  have h2 := h.dvd_addr hc
  have h3 : b.addr ≠ c.addr := fun he => hne (h.tiling.eq_of_addr hb hc he)
  exact ⟨h3, by omega, by omega⟩

theorem pairwise_apart (h : Inv d s fl live floats M) (l : ℕ) : (fl l).Pairwise Apart := by
  refine (h.nodup l).imp_of_mem ?_
  intro p q hp hq hne
  exact h.apart (b := block p l) (c := block q l) (mem_all_of_free hp) (mem_all_of_free hq)
    (by simpa [block_inj] using hne)

/-- Addresses in different blocks are different. -/
theorem ne_of_mem (h : Inv d s fl live floats M) {x : ℕ}
    (hb : b ∈ freeBlocks fl ∪ live ∪ floats) (hc : c ∈ freeBlocks fl ∪ live ∪ floats)
    (hne : b ≠ c) (ha : a ∈ b.cells) (hx : x ∈ c.cells) : a ≠ x := by
  rintro rfl
  exact hne (h.tiling.eq_of_mem hb hc ha hx)

/-- The link words of a free block are inside it, so an address of another block
or a list head is outside them. -/
theorem outside_of_mem (h : Inv d s fl live floats M)
    (hb : b ∈ freeBlocks fl ∪ live ∪ floats) (hc : c ∈ freeBlocks fl ∪ live ∪ floats)
    (hne : b ≠ c) (ha : a ∈ b.cells) : Outside a c.addr :=
  ⟨h.ne_of_mem hb hc hne ha (h.offset_mem hc le_rfl (by omega)),
    h.ne_of_mem hb hc hne ha (h.offset_mem hc (by omega) (by omega))⟩

theorem free_ne (h : Inv d s fl live floats M) (hp : p ∈ fl l)
    (hb : b ∈ live ∪ floats) : block p l ≠ b := by
  rintro rfl
  rcases hb with hb | hb
  · exact Set.disjoint_left.mp h.free_live (mem_freeBlocks.mpr hp) hb
  · exact Set.disjoint_left.mp h.free_floats (mem_freeBlocks.mpr hp) hb

/-- Only the list heads and the free blocks matter for the memory part of the
invariant. -/
theorem congr_mem (h : Inv d s fl live floats M) {m : Memory}
    (hh : ∀ l < 16, m (d.head l) = s.mem (d.head l))
    (hf : ∀ l, ∀ p ∈ fl l, ∀ a ∈ (block p l).cells, m a = s.mem a) :
    Inv d { s with mem := m } fl live floats M where
  chain := fun l hl => by
    refine (h.chain l hl).congr (hh l hl) fun x hx => ?_
    have hx' : block x l ∈ freeBlocks fl ∪ live ∪ floats := mem_all_of_free hx
    exact ⟨hf l x hx x (h.offset_mem hx' le_rfl (by simp [block])),
      hf l x hx (x + 8) (h.offset_mem hx' (by simp [block]) (by simp [block]))⟩
  empty := h.empty
  nodup := h.nodup
  header := fun l p hp => by
    have hp' : block p l ∈ freeBlocks fl ∪ live ∪ floats := mem_all_of_free hp
    exact (hf l p hp (p + 16) (h.offset_mem hp' (by simp [block]) (by simp [block]))).trans
      (h.header l p hp)
  zero := fun l p hp a ha hle => (hf l p hp a ha).trans (h.zero l p hp a ha hle)
  tiling := h.tiling
  free_live := h.free_live
  free_floats := h.free_floats
  live_floats := h.live_floats
  level := h.level
  bit_free := h.bit_free
  bit_live := h.bit_live
  bit_out := h.bit_out
  range := h.range

/-- The counters play no part in the invariant. -/
theorem congr_acct (h : Inv d s fl live floats M) (a : Accounting) :
    Inv d { s with acct := a } fl live floats M :=
  ⟨h.chain, h.empty, h.nodup, h.header, h.zero, h.tiling, h.free_live, h.free_floats,
    h.live_floats, h.level, h.bit_free, h.bit_live, h.bit_out, h.range⟩

end Inv

end Phys

end Tomato
