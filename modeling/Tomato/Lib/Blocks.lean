import Mathlib.Data.Nat.Bitwise
import Mathlib.Data.Set.Card
import Mathlib.Data.Set.Lattice
import Mathlib.Order.CompletePartialOrder
import Mathlib.Order.Interval.Set.Basic
import Mathlib.Tactic

/-!
# Aligned blocks of a power of two

A block of order `k` is the interval of `2 ^ k` addresses that starts at `addr`.
An aligned block starts at a multiple of its own size, so two aligned blocks are
nested or disjoint. The buddy of a block is the other half of the block of the
next order that contains it, and its address is found by flipping one bit.

`Tiling S M` says that the aligned blocks of `S` are pairwise disjoint and cover
exactly the set `M`. It is kept by halving a block, by merging a block with its
buddy, and by adding a block outside `M`.
-/

namespace Blocks

/-- A block of `2 ^ order` addresses. -/
structure Block where
  addr : ℕ
  order : ℕ
deriving DecidableEq, Repr

namespace Block

def size (b : Block) : ℕ := 2 ^ b.order

/-- The addresses inside the block. -/
def cells (b : Block) : Set ℕ := Set.Ico b.addr (b.addr + 2 ^ b.order)

/-- The block starts at a multiple of its own size. -/
def Aligned (b : Block) : Prop := 2 ^ b.order ∣ b.addr

/-- The other half of the next larger block. -/
def buddy (b : Block) : Block := ⟨b.addr ^^^ 2 ^ b.order, b.order⟩

/-- The block made of `b` and its buddy. -/
def parent (b : Block) : Block := ⟨min b.addr b.buddy.addr, b.order + 1⟩

theorem mem_cells {b : Block} {a : ℕ} :
    a ∈ b.cells ↔ b.addr ≤ a ∧ a < b.addr + 2 ^ b.order := Iff.rfl

theorem addr_mem_cells (b : Block) : b.addr ∈ b.cells :=
  ⟨le_rfl, Nat.lt_add_of_pos_right (Nat.two_pow_pos b.order)⟩

theorem cells_nonempty (b : Block) : b.cells.Nonempty := ⟨b.addr, b.addr_mem_cells⟩

/-- Flipping the bit of the size moves an aligned address to the neighbouring
block of the same order. -/
theorem xor_two_pow (q k : ℕ) :
    (q * 2 ^ k) ^^^ 2 ^ k = if q % 2 = 0 then q * 2 ^ k + 2 ^ k else q * 2 ^ k - 2 ^ k := by
  have hshift : (q * 2 ^ k) ^^^ 2 ^ k = (q ^^^ 1) * 2 ^ k := by
    rw [← Nat.shiftLeft_eq, ← Nat.shiftLeft_eq, Nat.shiftLeft_xor_distrib, Nat.one_shiftLeft]
  rw [hshift]
  rcases Nat.mod_two_eq_zero_or_one q with hq | hq
  · have : q ^^^ 1 = q + 1 := Nat.xor_one_of_even (Nat.even_iff.mpr hq)
    simp [hq, this, add_mul]
  · have : q ^^^ 1 = q - 1 := Nat.xor_one_of_odd (Nat.odd_iff.mpr hq)
    simp [hq, this, Nat.sub_mul]

theorem buddy_order (b : Block) : b.buddy.order = b.order := rfl

/-- The buddy of an aligned block is right after it or right before it. -/
theorem buddy_cases {b : Block} (h : b.Aligned) :
    (2 ^ (b.order + 1) ∣ b.addr ∧ b.buddy.addr = b.addr + 2 ^ b.order) ∨
      (b.addr = b.buddy.addr + 2 ^ b.order ∧ 2 ^ (b.order + 1) ∣ b.buddy.addr) := by
  obtain ⟨q, hq⟩ := h
  rw [mul_comm] at hq
  have hx := xor_two_pow q b.order
  have hb : b.buddy.addr = (q * 2 ^ b.order) ^^^ 2 ^ b.order := by rw [buddy, hq]
  rw [hb, hx, hq, pow_succ]
  rcases Nat.mod_two_eq_zero_or_one q with hm | hm
  · left
    refine ⟨?_, by simp [hm]⟩
    obtain ⟨r, rfl⟩ := Nat.dvd_of_mod_eq_zero hm
    exact ⟨r, by ring⟩
  · right
    obtain ⟨r, rfl⟩ : ∃ r, q = 2 * r + 1 := ⟨q / 2, by omega⟩
    have : (2 * r + 1) * 2 ^ b.order - 2 ^ b.order = 2 * r * 2 ^ b.order := by
      rw [add_mul, one_mul, Nat.add_sub_cancel]
    refine ⟨?_, ?_⟩
    · simp [add_mul]
    · simp only [hm, one_ne_zero, if_false, this]
      exact ⟨r, by ring⟩

theorem buddy_aligned {b : Block} (h : b.Aligned) : b.buddy.Aligned := by
  have hdvd : 2 ^ b.order ∣ 2 ^ (b.order + 1) := pow_dvd_pow 2 (Nat.le_succ _)
  rcases buddy_cases h with ⟨-, h2⟩ | ⟨-, h2⟩
  · simpa [Aligned, buddy_order, h2] using Nat.dvd_add h (dvd_refl _)
  · exact hdvd.trans h2

theorem buddy_buddy (b : Block) : b.buddy.buddy = b := by
  simp [buddy]

theorem parent_aligned {b : Block} (h : b.Aligned) : b.parent.Aligned := by
  rcases buddy_cases h with ⟨h1, h2⟩ | ⟨h1, h2⟩
  · simpa [Aligned, parent, h2] using h1
  · have : min b.addr b.buddy.addr = b.buddy.addr := by omega
    simpa [Aligned, parent, this] using h2

/-- A block and its buddy tile the parent. -/
theorem cells_parent {b : Block} (h : b.Aligned) :
    b.parent.cells = b.cells ∪ b.buddy.cells := by
  ext a
  simp only [Set.mem_union, mem_cells, parent, buddy_order, pow_succ]
  rcases buddy_cases h with ⟨-, h2⟩ | ⟨h1, -⟩ <;> omega

theorem disjoint_buddy {b : Block} (h : b.Aligned) : Disjoint b.cells b.buddy.cells := by
  rw [Set.disjoint_left]
  intro a ha hb
  simp only [mem_cells, buddy_order] at ha hb
  rcases buddy_cases h with ⟨-, h2⟩ | ⟨h1, -⟩ <;> omega

theorem disjoint_halves (p k : ℕ) :
    Disjoint (cells ⟨p, k⟩) (cells ⟨p + 2 ^ k, k⟩) := by
  rw [Set.disjoint_left]
  intro a ha hb
  simp only [mem_cells] at ha hb
  omega

/-- Of two aligned blocks with a common address, the smaller one is inside the
larger one. -/
theorem cells_subset {b c : Block} (hb : b.Aligned) (hc : c.Aligned) (hle : b.order ≤ c.order)
    {a : ℕ} (hab : a ∈ b.cells) (hac : a ∈ c.cells) : b.cells ⊆ c.cells := by
  obtain ⟨d, hd⟩ := Nat.exists_eq_add_of_le hle
  obtain ⟨q, hq⟩ := hb
  obtain ⟨r, hr⟩ := hc
  intro x hx
  simp only [mem_cells, hq, hr, hd, pow_add] at *
  have hpos : 0 < 2 ^ b.order := Nat.two_pow_pos _
  have h1 : r * 2 ^ d ≤ q := by
    by_contra hlt
    have : (q + 1) * 2 ^ b.order ≤ r * 2 ^ d * 2 ^ b.order := Nat.mul_le_mul_right _ (by omega)
    nlinarith
  have h2 : q + 1 ≤ r * 2 ^ d + 2 ^ d := by
    by_contra hlt
    have : (r * 2 ^ d + 2 ^ d) * 2 ^ b.order ≤ q * 2 ^ b.order := Nat.mul_le_mul_right _ (by omega)
    nlinarith
  have h3 := Nat.mul_le_mul_right (2 ^ b.order) h1
  have h4 := Nat.mul_le_mul_right (2 ^ b.order) h2
  constructor <;> nlinarith

/-- An address that is a multiple of the size of a block that contains it is the
start of the block. -/
theorem addr_eq_of_dvd {b : Block} (hb : b.Aligned) {a : ℕ} (ha : a ∈ b.cells)
    (hd : 2 ^ b.order ∣ a) : b.addr = a := by
  obtain ⟨q, hq⟩ := hb
  obtain ⟨r, hr⟩ := hd
  simp only [mem_cells] at ha
  rw [hq, hr] at ha
  have hpos : 0 < 2 ^ b.order := Nat.two_pow_pos _
  have h1 : q ≤ r := Nat.le_of_mul_le_mul_left ha.1 hpos
  have h2 : r < q + 1 := by
    have : 2 ^ b.order * r < 2 ^ b.order * (q + 1) := by rw [mul_add, mul_one]; exact ha.2
    exact Nat.lt_of_mul_lt_mul_left this
  rw [hq, hr, show q = r by omega]

theorem eq_of_cells_eq {b c : Block} (ho : b.order = c.order) (ha : b.addr = c.addr) : b = c := by
  cases b; cases c; simp_all

end Block

/-- The blocks of `S` are aligned, pairwise disjoint and cover exactly `M`. -/
structure Tiling (S : Set Block) (M : Set ℕ) : Prop where
  aligned : ∀ b ∈ S, b.Aligned
  disjoint : S.PairwiseDisjoint Block.cells
  cover : ⋃ b ∈ S, b.cells = M

namespace Tiling

variable {S : Set Block} {M : Set ℕ} {b c : Block}

theorem empty : Tiling ∅ ∅ := ⟨by simp, by simp, by simp⟩

theorem mem_cover (h : Tiling S M) {a : ℕ} : a ∈ M ↔ ∃ b ∈ S, a ∈ b.cells := by
  rw [← h.cover]
  simp

theorem subset (h : Tiling S M) (hb : b ∈ S) : b.cells ⊆ M := fun _ ha =>
  h.mem_cover.mpr ⟨b, hb, ha⟩

/-- Blocks of a tiling that share an address are equal. -/
theorem eq_of_mem (h : Tiling S M) (hb : b ∈ S) (hc : c ∈ S) {a : ℕ}
    (hab : a ∈ b.cells) (hac : a ∈ c.cells) : b = c := by
  by_contra hne
  exact Set.disjoint_left.mp (h.disjoint hb hc hne) hab hac

theorem eq_of_addr (h : Tiling S M) (hb : b ∈ S) (hc : c ∈ S) (ha : b.addr = c.addr) : b = c :=
  h.eq_of_mem hb hc b.addr_mem_cells (ha ▸ c.addr_mem_cells)

/-- The start of the buddy of a block of the tiling is the start of a block of the
tiling as soon as it is covered: a larger block around it would also contain `b`. -/
theorem exists_addr_buddy (h : Tiling S M) (hb : b ∈ S) (hM : b.buddy.addr ∈ M) :
    ∃ c ∈ S, c.addr = b.buddy.addr := by
  have hal := h.aligned b hb
  obtain ⟨c, hc, hac⟩ := h.mem_cover.mp hM
  refine ⟨c, hc, ?_⟩
  have hcal := h.aligned c hc
  rcases Nat.lt_or_ge b.order c.order with hlt | hge
  · exfalso
    have hsub : b.parent.cells ⊆ c.cells :=
      Block.cells_subset (Block.parent_aligned hal) hcal (by simpa [Block.parent] using hlt)
        (by rw [Block.cells_parent hal]; exact Or.inr b.buddy.addr_mem_cells) hac
    have hbc : b.addr ∈ c.cells :=
      hsub (by rw [Block.cells_parent hal]; exact Or.inl b.addr_mem_cells)
    have := h.eq_of_mem hb hc b.addr_mem_cells hbc
    exact absurd hlt (by simp [this])
  · refine Block.addr_eq_of_dvd hcal hac ?_
    exact (pow_dvd_pow 2 hge).trans (Block.buddy_aligned hal)

/-- Replacing blocks by blocks that tile the same addresses keeps a tiling. -/
theorem replace {T U : Set Block} (h : Tiling (S ∪ T) M) (hST : Disjoint S T)
    (hU : ∀ b ∈ U, b.Aligned) (hUd : U.PairwiseDisjoint Block.cells)
    (hc : ⋃ b ∈ U, b.cells = ⋃ b ∈ T, b.cells) : Tiling (S ∪ U) M := by
  have key : ∀ b ∈ S, ∀ c ∈ U, Disjoint b.cells c.cells := by
    intro b hb c hcU
    rw [Set.disjoint_left]
    intro a hab hac
    have : a ∈ ⋃ b ∈ T, b.cells := hc ▸ Set.mem_biUnion hcU hac
    obtain ⟨d, hd, had⟩ := by simpa using this
    have : b = d := h.eq_of_mem (Or.inl hb) (Or.inr hd) hab had
    exact Set.disjoint_left.mp hST hb (this ▸ hd)
  refine ⟨?_, ?_, ?_⟩
  · rintro b (hb | hb)
    · exact h.aligned b (Or.inl hb)
    · exact hU b hb
  · rintro b (hb | hb) c (hc' | hc') hne
    · exact h.disjoint (Or.inl hb) (Or.inl hc') hne
    · exact key b hb c hc'
    · exact (key c hc' b hb).symm
    · exact hUd hb hc' hne
  · rw [← h.cover, Set.biUnion_union, Set.biUnion_union, hc]

/-- A block can be halved. -/
theorem split {p k : ℕ} (h : Tiling (S ∪ {⟨p, k + 1⟩}) M) (hS : (⟨p, k + 1⟩ : Block) ∉ S) :
    Tiling (S ∪ {⟨p, k⟩, ⟨p + 2 ^ k, k⟩}) M := by
  have hal : (⟨p, k + 1⟩ : Block).Aligned := h.aligned _ (by simp)
  have hp : 2 ^ k ∣ p := (pow_dvd_pow 2 (Nat.le_succ k)).trans hal
  refine h.replace (by simpa using hS) ?_ ?_ ?_
  · rintro b (rfl | rfl)
    · exact hp
    · exact Nat.dvd_add hp (dvd_refl _)
  · rintro b (rfl | rfl) c (rfl | rfl) hne
    · exact absurd rfl hne
    · exact Block.disjoint_halves p k
    · exact (Block.disjoint_halves p k).symm
    · exact absurd rfl hne
  · ext a
    simp [Block.mem_cells, pow_succ]
    omega

/-- A block and its buddy can be merged. -/
theorem merge (h : Tiling (S ∪ {b, b.buddy}) M) (hS : b ∉ S) (hS' : b.buddy ∉ S) :
    Tiling (S ∪ {b.parent}) M := by
  have hal : b.Aligned := h.aligned _ (by simp)
  refine h.replace ?_ ?_ ?_ ?_
  · rw [Set.disjoint_right]
    rintro c (rfl | rfl)
    · exact hS
    · exact hS'
  · rintro c rfl
    exact Block.parent_aligned hal
  · exact Set.pairwiseDisjoint_singleton _ _
  · simp [Block.cells_parent hal]

/-- A block outside the covered set can be added. -/
theorem insert (h : Tiling S M) (hb : b.Aligned) (hd : Disjoint b.cells M) :
    Tiling (S ∪ {b}) (M ∪ b.cells) := by
  refine ⟨?_, ?_, ?_⟩
  · rintro c (hc | rfl)
    · exact h.aligned c hc
    · exact hb
  · rw [Set.union_singleton]
    refine h.disjoint.insert fun c hc _ => ?_
    exact hd.mono_right (h.subset hc)
  · rw [Set.biUnion_union, h.cover]
    simp

end Tiling

/-- The numbers of the cells of order `k` whose first address is in `A`. -/
def marks (k : ℕ) (A : Set ℕ) : Set ℕ := {n | 2 ^ k * n ∈ A}

variable {k : ℕ} {A B : Set ℕ} {b : Block}

theorem mem_marks {n : ℕ} : n ∈ marks k A ↔ 2 ^ k * n ∈ A := Iff.rfl

theorem marks_mono (h : A ⊆ B) : marks k A ⊆ marks k B := fun _ hn => h hn

theorem marks_union : marks k (A ∪ B) = marks k A ∪ marks k B := rfl

theorem disjoint_marks (h : Disjoint A B) : Disjoint (marks k A) (marks k B) :=
  Set.disjoint_left.mpr fun _ ha hb => Set.disjoint_left.mp h ha hb

/-- An interval between multiples of the cell size has one cell for each multiple. -/
theorem marks_Ico (k x y : ℕ) : marks k (Set.Ico (2 ^ k * x) (2 ^ k * y)) = Set.Ico x y := by
  have hpos : 0 < 2 ^ k := Nat.two_pow_pos k
  ext n
  simp only [mem_marks, Set.mem_Ico, Nat.mul_le_mul_left_iff hpos, Nat.mul_lt_mul_left hpos]

theorem marks_cells (hb : b.Aligned) (hk : k ≤ b.order) :
    marks k b.cells = Set.Ico (b.addr / 2 ^ k) (b.addr / 2 ^ k + 2 ^ (b.order - k)) := by
  have hdvd : 2 ^ k ∣ b.addr := (pow_dvd_pow 2 hk).trans hb
  have haddr : 2 ^ k * (b.addr / 2 ^ k) = b.addr := Nat.mul_div_cancel' hdvd
  rw [← marks_Ico k, mul_add, haddr, ← pow_add, Nat.add_sub_cancel' hk]
  rfl

theorem ncard_marks_cells (hb : b.Aligned) (hk : k ≤ b.order) :
    (marks k b.cells).ncard = 2 ^ (b.order - k) := by
  rw [marks_cells hb hk, ← Finset.coe_Ico, Set.ncard_coe_finset, Nat.card_Ico,
    Nat.add_sub_cancel_left]

theorem marks_finite (h : A.Finite) : (marks k A).Finite :=
  h.preimage fun _ _ _ _ he => Nat.eq_of_mul_eq_mul_left (Nat.two_pow_pos k) he

end Blocks
