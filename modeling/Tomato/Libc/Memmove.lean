import Mathlib.Logic.Function.Basic
import Mathlib.Tactic.NormNum

/-!
# `memmove`

One loop copies in both directions. Its index starts below the first byte or behind the last
one, and steps by one or by `2 ^ 64 - 1`. Addresses and indices are words of 64 bits, and the
memory is a map from addresses to bytes.
-/

namespace Tomato

/-- The loop of `memmove`, with `len` bytes to go. -/
def memmoveLoop (dst src dir : ℕ) : ℕ → ℕ → (ℕ → ℕ) → ℕ → ℕ
  | 0, _, mem => mem
  | len + 1, pos, mem =>
    let pos := (pos + dir) % 2 ^ 64
    memmoveLoop dst src dir len pos
      (Function.update mem ((dst + pos) % 2 ^ 64) (mem ((src + pos) % 2 ^ 64)))

/-- The pointer that is returned, and the memory. -/
def memmove (dst src len : ℕ) (mem : ℕ → ℕ) : ℕ × (ℕ → ℕ) :=
  if dst < src then (dst, memmoveLoop dst src 1 len (2 ^ 64 - 1) mem)
  else (dst, memmoveLoop dst src (2 ^ 64 - 1) len len mem)

/-- The bytes from `lo` on below `hi` were moved, and no others. -/
structure Moved (dst src lo hi : ℕ) (mem mem' : ℕ → ℕ) : Prop where
  copied : ∀ i, lo ≤ i → i < hi → mem' (dst + i) = mem (src + i)
  frame : ∀ a, (∀ i, lo ≤ i → i < hi → a ≠ dst + i) → mem' a = mem a

variable {dst src len lo hi pos : ℕ} {mem mem' : ℕ → ℕ}

theorem Moved.refl (h : hi ≤ lo) : Moved dst src lo hi mem mem where
  copied := fun i h1 h2 => by omega
  frame := fun _ _ => rfl

/-- The first byte was moved before the others, and is read by none of them. -/
theorem Moved.first (hlt : lo < hi) (hdir : dst < src)
    (h : Moved dst src (lo + 1) hi (Function.update mem (dst + lo) (mem (src + lo))) mem') :
    Moved dst src lo hi mem mem' where
  copied := fun i h1 h2 => by
    rcases Nat.eq_or_lt_of_le h1 with rfl | h1
    · rw [h.frame _ fun i h3 h4 => by omega, Function.update_self]
    · rw [h.copied i h1 h2, Function.update_of_ne (by omega)]
  frame := fun a ha => by
    rw [h.frame a fun i h1 h2 => ha i (by omega) h2, Function.update_of_ne (ha lo le_rfl hlt)]

/-- The last byte was moved before the others, and is read by none of them. -/
theorem Moved.last (hle : lo ≤ hi) (hdir : src ≤ dst)
    (h : Moved dst src lo hi (Function.update mem (dst + hi) (mem (src + hi))) mem') :
    Moved dst src lo (hi + 1) mem mem' where
  copied := fun i h1 h2 => by
    rcases Nat.eq_or_lt_of_le (Nat.le_of_lt_succ h2) with rfl | h2
    · rw [h.frame _ fun i h3 h4 => by omega, Function.update_self]
    · rw [h.copied i h1 h2, Function.update_of_ne (by omega)]
  frame := fun a ha => by
    rw [h.frame a fun i h1 h2 => ha i h1 (by omega), Function.update_of_ne (ha hi hle (by omega))]

/-- The loop goes up from the index after `pos`. -/
theorem memmoveLoop_up (hdir : dst < src) (hs : src + (lo + len) ≤ 2 ^ 64)
    (hpos : (pos + 1) % 2 ^ 64 = lo % 2 ^ 64) :
    Moved dst src lo (lo + len) mem (memmoveLoop dst src 1 len pos mem) := by
  induction len generalizing lo pos mem with
  | zero => exact .refl le_rfl
  | succ len ih =>
    have hlo : (pos + 1) % 2 ^ 64 = lo := hpos.trans (Nat.mod_eq_of_lt (by omega))
    have hdst : (dst + lo) % 2 ^ 64 = dst + lo := Nat.mod_eq_of_lt (by omega)
    have hsrc : (src + lo) % 2 ^ 64 = src + lo := Nat.mod_eq_of_lt (by omega)
    rw [memmoveLoop, hlo, hdst, hsrc]
    refine Moved.first (by omega) hdir ?_
    rw [show lo + (len + 1) = lo + 1 + len by omega]
    exact ih (by omega) rfl

/-- The loop goes down from the index `len`. -/
theorem memmoveLoop_down (hdir : src ≤ dst) (hd : dst + len ≤ 2 ^ 64) :
    Moved dst src 0 len mem (memmoveLoop dst src (2 ^ 64 - 1) len len mem) := by
  induction len generalizing mem with
  | zero => exact .refl le_rfl
  | succ len ih =>
    have hpos : (len + 1 + (2 ^ 64 - 1)) % 2 ^ 64 = len := by
      rw [show len + 1 + (2 ^ 64 - 1) = len + 2 ^ 64 by omega, Nat.add_mod_right]
      exact Nat.mod_eq_of_lt (by omega)
    have hdst : (dst + len) % 2 ^ 64 = dst + len := Nat.mod_eq_of_lt (by omega)
    have hsrc : (src + len) % 2 ^ 64 = src + len := Nat.mod_eq_of_lt (by omega)
    rw [memmoveLoop, hpos, hdst, hsrc]
    exact Moved.last (Nat.zero_le len) hdir (ih (by omega))

/-- However the ranges lie, the bytes are those that the source had before. -/
theorem memmove_moves (mem : ℕ → ℕ) (hd : dst + len ≤ 2 ^ 64) (hs : src + len ≤ 2 ^ 64) :
    ∃ mem', memmove dst src len mem = (dst, mem') ∧
      (∀ i < len, mem' (dst + i) = mem (src + i)) ∧
      ∀ a, a ∉ Set.Ico dst (dst + len) → mem' a = mem a := by
  obtain ⟨mem', he, h⟩ : ∃ mem', memmove dst src len mem = (dst, mem') ∧
      Moved dst src 0 len mem mem' := by
    by_cases hdir : dst < src
    · refine ⟨_, if_pos hdir, ?_⟩
      have hup : Moved dst src 0 (0 + len) mem (memmoveLoop dst src 1 len (2 ^ 64 - 1) mem) :=
        memmoveLoop_up hdir (by omega) rfl
      rwa [Nat.zero_add] at hup
    · exact ⟨_, if_neg hdir, memmoveLoop_down (not_lt.mp hdir) hd⟩
  refine ⟨mem', he, fun i hi => h.copied i (Nat.zero_le i) hi, fun a ha => h.frame a ?_⟩
  rintro i - hi rfl
  exact ha ⟨Nat.le_add_right dst i, by omega⟩

/-- The ranges overlap, and the destination comes first. -/
theorem memmove_moves_overlapping : ∃ mem', memmove 1 2 3 id = (1, mem') ∧
    (∀ i < 3, mem' (1 + i) = 2 + i) ∧ ∀ a, a ∉ Set.Ico 1 (1 + 3) → mem' a = a :=
  memmove_moves id (by norm_num) (by norm_num)

end Tomato
