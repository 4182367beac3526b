import Tomato.Lib.Blocks
import Tomato.Mem.Phys.Basic

/-!
# Levels and bits

What the size computations and the bitmap operations of the physical allocator
amount to: a level `l` stands for blocks of `2 ^ (l + 6)` bytes, and setting or
clearing the bit of one pointer changes the answer of `buddyIsBlockFree` for the
pointers with the same 64 byte unit only.
-/

namespace Tomato

open Blocks

theorem blockSize_eq (l : ℕ) : blockSize l = 2 ^ (l + 6) := by
  simp [blockSize, PHYS_BUDDY_MIN_ORDER, Nat.one_shiftLeft]

theorem PHYS_BUDDY_PAGE_LEVEL_eq : PHYS_BUDDY_PAGE_LEVEL = 6 := rfl

theorem getPageCountByLevel_eq (l : ℕ) : getPageCountByLevel l = 2 ^ (l - 6) := by
  simp [getPageCountByLevel, PHYS_BUDDY_PAGE_LEVEL, PAGE_SHIFT, PHYS_BUDDY_MIN_ORDER,
    Nat.one_shiftLeft]

/-- The level of a size is the smallest level whose blocks hold the size. -/
theorem getLevelBySize_eq_some {size l : ℕ} (h : getLevelBySize size = some l) :
    l < 16 ∧ size ≤ 2 ^ (l + 6) ∧ ∀ k < l, 2 ^ (k + 6) < size := by
  have hmax : PHYS_BUDDY_MAX_SIZE = 2 ^ 21 := by decide
  have hmin : PHYS_BUDDY_MIN_SIZE = 64 := by decide
  simp only [getLevelBySize, hmax, hmin, PHYS_BUDDY_MIN_ORDER, clzll] at h
  split at h
  · simp at h
  · rename_i hle
    obtain ⟨n, hn⟩ : ∃ n, n = (if size < 64 then 64 else size) := ⟨_, rfl⟩
    rw [← hn] at h
    have hn1 : 64 ≤ n := by rw [hn]; split <;> omega
    have hn2 : n ≤ 2 ^ 21 := by rw [hn]; split <;> omega
    have hlo : 2 ^ Nat.log2 (n - 1) ≤ n - 1 := Nat.log2_self_le (by omega)
    have hhi : n - 1 < 2 ^ (Nat.log2 (n - 1) + 1) := Nat.lt_log2_self
    have h5 : 5 ≤ Nat.log2 (n - 1) := by
      rw [Nat.le_log2 (by omega)]
      omega
    have h21 : Nat.log2 (n - 1) < 21 := by
      rw [Nat.log2_lt (by omega)]
      omega
    have hl : l = Nat.log2 (n - 1) - 5 := by
      simp only [Option.some.injEq] at h
      omega
    refine ⟨by omega, ?_, ?_⟩
    · have : l + 6 = Nat.log2 (n - 1) + 1 := by omega
      rw [this]
      have : size ≤ n := by rw [hn]; split <;> omega
      omega
    · intro k hk
      have hpow : 2 ^ (k + 6) ≤ 2 ^ Nat.log2 (n - 1) := Nat.pow_le_pow_right (by omega) (by omega)
      have : 64 ≤ 2 ^ (k + 6) := Nat.pow_le_pow_right (n := 2) (i := 6) (by omega) (by omega)
      have : n = 64 ∨ n = size := by
        rw [hn]
        split <;> simp
      omega

theorem getLevelBySize_isSome {size : ℕ} : (getLevelBySize size).isSome ↔ size ≤ 2 ^ 21 := by
  have hmax : PHYS_BUDDY_MAX_SIZE = 2 ^ 21 := by decide
  rw [getLevelBySize, hmax]
  split <;> simp <;> omega

theorem getPageLevelBySize_eq_some {size l : ℕ} (h : getPageLevelBySize size = some l) :
    getLevelBySize size = some l ∧ 6 ≤ l ∧ l < 16 ∧ size = 2 ^ (l + 6) := by
  unfold getPageLevelBySize at h
  split at h
  · simp at h
  · rename_i level hlevel
    split at h
    · simp at h
    · rename_i hnot
      simp only [not_or, not_lt, ne_eq, Decidable.not_not] at hnot
      obtain rfl := Option.some.inj h
      exact ⟨hlevel, hnot.1, (getLevelBySize_eq_some hlevel).1,
        hnot.2.trans (blockSize_eq level)⟩

/-- A page is the smallest block of pages. -/
theorem getLevelBySize_pageSize : getLevelBySize PAGE_SIZE = some 6 := by decide

theorem getPageLevelBySize_pageSize : getPageLevelBySize PAGE_SIZE = some 6 := by decide

namespace Phys

variable (d : DirectMap) (s : Phys)

theorem shiftRight_and_one (x : BitVec 8) (i : ℕ) :
    ((x >>> i) &&& 1#8 == 1#8) = x.getLsbD i := by
  rw [BitVec.and_one_eq_setWidth_ofBool_getLsbD, BitVec.getLsbD_ushiftRight]
  cases h : x.getLsbD (i + 0) <;> simp_all

theorem getLsbD_one_shiftLeft {i j : ℕ} (hj : j < 8) :
    (1#8 <<< i).getLsbD j = decide (j = i) := by
  simp only [BitVec.getLsbD_shiftLeft, BitVec.getLsbD_one, hj]
  by_cases h : j < i
  · have : j ≠ i := by omega
    simp [h, this]
  · simp [h]
    omega

/-- The 64 byte unit of a pointer. -/
def unit (ptr : ℕ) : ℕ := d.directToPhys ptr / 64

theorem buddyIsBlockFree_eq (ptr : ℕ) :
    buddyIsBlockFree d s ptr = (s.bitmap (unit d ptr / 8)).getLsbD (unit d ptr % 8) := by
  simp only [buddyIsBlockFree, unit, PHYS_BUDDY_MIN_ORDER, Nat.shiftRight_eq_div_pow]
  exact shiftRight_and_one _ _

theorem decide_unit_eq (p q : ℕ) :
    decide (unit d q = unit d p) =
      (decide (unit d q / 8 = unit d p / 8) && decide (unit d q % 8 = unit d p % 8)) := by
  rw [Bool.eq_iff_iff]
  simp only [decide_eq_true_eq, Bool.and_eq_true]
  omega

theorem buddyIsBlockFree_setFree (p q : ℕ) :
    buddyIsBlockFree d (buddySetBlockFree d s p) q =
      (decide (unit d q = unit d p) || buddyIsBlockFree d s q) := by
  have hlt : unit d q % 8 < 8 := Nat.mod_lt _ (by omega)
  rw [buddyIsBlockFree_eq, buddyIsBlockFree_eq, decide_unit_eq]
  simp only [buddySetBlockFree, PHYS_BUDDY_MIN_ORDER, Nat.shiftRight_eq_div_pow]
  change (if unit d q / 8 = unit d p / 8 then _ else _ : BitVec 8).getLsbD _ = _
  by_cases h : unit d q / 8 = unit d p / 8
  · simp only [h, if_true, BitVec.getLsbD_or, decide_true, Bool.true_and]
    rw [getLsbD_one_shiftLeft hlt, Bool.or_comm]
    rfl
  · simp [h]

theorem buddyIsBlockFree_setAllocated (p q : ℕ) :
    buddyIsBlockFree d (buddySetBlockAllocated d s p) q =
      (!decide (unit d q = unit d p) && buddyIsBlockFree d s q) := by
  have hlt : unit d q % 8 < 8 := Nat.mod_lt _ (by omega)
  rw [buddyIsBlockFree_eq, buddyIsBlockFree_eq, decide_unit_eq]
  simp only [buddySetBlockAllocated, PHYS_BUDDY_MIN_ORDER, Nat.shiftRight_eq_div_pow]
  change (if unit d q / 8 = unit d p / 8 then _ else _ : BitVec 8).getLsbD _ = _
  by_cases h : unit d q / 8 = unit d p / 8
  · simp only [h, if_true, BitVec.getLsbD_and, BitVec.getLsbD_not, hlt, decide_true,
      Bool.true_and]
    rw [getLsbD_one_shiftLeft hlt, Bool.and_comm]
    rfl
  · simp [h]

theorem unit_inj {p q : ℕ} (hp : d.base ≤ p) (hq : d.base ≤ q) (hp' : 64 ∣ p) (hq' : 64 ∣ q)
    (h : unit d q = unit d p) : q = p := by
  have hb : 64 ∣ d.base := (show 64 ∣ 2 ^ 21 by norm_num).trans d.base_aligned
  simp only [unit, DirectMap.directToPhys] at h
  omega

@[simp] theorem buddySetBlockFree_mem (p : ℕ) : (buddySetBlockFree d s p).mem = s.mem := rfl

@[simp] theorem buddySetBlockFree_acct (p : ℕ) : (buddySetBlockFree d s p).acct = s.acct := rfl

@[simp] theorem buddySetBlockAllocated_mem (p : ℕ) :
    (buddySetBlockAllocated d s p).mem = s.mem := rfl

@[simp] theorem buddySetBlockAllocated_acct (p : ℕ) :
    (buddySetBlockAllocated d s p).acct = s.acct := rfl

end Phys

end Tomato
