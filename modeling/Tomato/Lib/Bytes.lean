import Mathlib.Logic.Function.Basic
import Mathlib.Order.Interval.Set.Defs
import Mathlib.Tactic

/-!
# Memory as bytes

A memory is a map from addresses to bytes. Numbers of any length are stored in it with the
lowest byte first. A read sees the last write to its bytes, and no write to others.
-/

namespace Tomato

abbrev Bytes := ℕ → UInt8

namespace Bytes

/-- The number in the `n` bytes from `p` on. -/
def read (b : Bytes) : ℕ → ℕ → ℕ
  | _, 0 => 0
  | p, n + 1 => (b p).toNat + 256 * read b (p + 1) n

/-- The lowest `n` bytes of the number are stored from `p` on. -/
def write (b : Bytes) : ℕ → ℕ → ℕ → Bytes
  | _, 0, _ => b
  | p, n + 1, v => write (Function.update b p (UInt8.ofNat v)) (p + 1) n (v / 256)

variable {b b' : Bytes} {p q n k v x : ℕ}

theorem write_of_notMem (hx : x ∉ Set.Ico p (p + n)) : b.write p n v x = b x := by
  induction n generalizing b p v with
  | zero => rfl
  | succ n ih =>
      simp only [Set.mem_Ico] at hx
      rw [write, ih (by simp only [Set.mem_Ico]; omega), Function.update_of_ne (by omega)]

theorem read_congr (h : ∀ x ∈ Set.Ico p (p + n), b' x = b x) : b'.read p n = b.read p n := by
  induction n generalizing p with
  | zero => rfl
  | succ n ih =>
      rw [read, read, h p (by simp), ih fun x hx => h x ?_]
      simp only [Set.mem_Ico] at hx ⊢
      omega

theorem read_write (hv : v < 256 ^ n) : (b.write p n v).read p n = v := by
  induction n generalizing b p v with
  | zero =>
      rw [pow_zero, Nat.lt_one_iff] at hv
      rw [read, hv]
  | succ n ih =>
      have hp : p ∉ Set.Ico (p + 1) (p + 1 + n) := by simp
      have hdiv : v / 256 < 256 ^ n := by
        rw [pow_succ] at hv
        omega
      rw [read, write, write_of_notMem hp, Function.update_self, ih hdiv, UInt8.toNat_ofNat']
      exact Nat.mod_add_div v 256

theorem read_write_of_le (h : q + k ≤ p ∨ p + n ≤ q) :
    (b.write p n v).read q k = b.read q k := by
  refine read_congr fun x hx => write_of_notMem ?_
  simp only [Set.mem_Ico] at hx ⊢
  omega

theorem read_eq_zero (h : ∀ x ∈ Set.Ico p (p + n), b x = 0) : b.read p n = 0 := by
  induction n generalizing p with
  | zero => rfl
  | succ n ih =>
      rw [read, h p (by simp), ih fun x hx => h x ?_]
      · rfl
      · simp only [Set.mem_Ico] at hx ⊢
        omega

/-- Storing zero clears the bytes. -/
theorem write_zero (hx : x ∈ Set.Ico p (p + n)) : b.write p n 0 x = 0 := by
  induction n generalizing b p with
  | zero => simp at hx
  | succ n ih =>
      rw [write, Nat.zero_div]
      by_cases hxp : x = p
      · subst hxp
        rw [write_of_notMem (by simp), Function.update_self]
        rfl
      · refine ih ?_
        simp only [Set.mem_Ico] at hx ⊢
        omega

end Bytes

end Tomato
