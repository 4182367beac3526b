import Mathlib.Data.Nat.Digits.Lemmas
import Mathlib.Tactic

/-!
# Digits from the top

The digits of a number, the highest one first, by division with the powers of the base.
Leading zeros are left out, the last digit never is. Digits of one length that have one value
are the same.
-/

namespace Digits

variable {b k m n : ℕ} {ds es : List ℕ}

/-- The digits of a number below `b ^ k`. A zero counts once another digit has come before. -/
def top (b : ℕ) : ℕ → ℕ → Bool → List ℕ
  | 0, _, _ => []
  | k + 1, n, started =>
    if started ∨ b ^ k ≤ n ∨ k = 0 then n / b ^ k :: top b k (n % b ^ k) true
    else top b k n false

theorem lt_of_mem_top {d : ℕ} {started : Bool} (hn : n < b ^ k) (hd : d ∈ top b k n started) :
    d < b := by
  induction k generalizing n started with
  | zero => simp [top] at hd
  | succ k ih =>
      have hpos : 0 < b ^ k := Nat.pos_of_ne_zero fun h => by simp [pow_succ, h] at hn
      rw [top] at hd
      split at hd
      · rcases List.mem_cons.mp hd with rfl | hd
        · exact Nat.div_lt_of_lt_mul (by rwa [pow_succ] at hn)
        · exact ih (Nat.mod_lt n hpos) hd
      · rename_i hc
        exact ih (not_le.mp fun h => hc (Or.inr (Or.inl h))) hd

/-- All the digits follow once one has come. -/
theorem toDigits_append_top (hb : 1 < b) (hm : 0 < m) (hn : n < b ^ k) :
    Nat.toDigits b m ++ (top b k n true).map Nat.digitChar = Nat.toDigits b (m * b ^ k + n) := by
  induction k generalizing m n with
  | zero =>
      obtain rfl : n = 0 := by simpa using hn
      simp [top]
  | succ k ih =>
      have hpos : 0 < b ^ k := Nat.pow_pos (by omega)
      have hd : n / b ^ k < b := Nat.div_lt_of_lt_mul (by rwa [pow_succ] at hn)
      have hrest : n % b ^ k < b ^ k := Nat.mod_lt n hpos
      have hdigit : Nat.toDigits b m ++ [(n / b ^ k).digitChar] =
          Nat.toDigits b (b * m + n / b ^ k) := by
        rw [← Nat.toDigits_of_lt_base hd, Nat.toDigits_append_toDigits hb hm hd]
      have hvalue : (b * m + n / b ^ k) * b ^ k + n % b ^ k = m * b ^ (k + 1) + n := by
        calc (b * m + n / b ^ k) * b ^ k + n % b ^ k
            = b * m * b ^ k + (b ^ k * (n / b ^ k) + n % b ^ k) := by ring
          _ = m * b ^ (k + 1) + n := by rw [Nat.div_add_mod]; ring
      have hm' : 0 < b * m + n / b ^ k :=
        Nat.add_pos_left (Nat.mul_pos (by omega) hm) _
      simp only [top, true_or, if_true, List.map_cons]
      rw [List.append_cons, hdigit, ih hm' hrest, hvalue]

/-- The digits from the top are the digits. -/
theorem map_top (hb : 1 < b) (hk : 0 < k) (hn : n < b ^ k) :
    (top b k n false).map Nat.digitChar = Nat.toDigits b n := by
  induction k with
  | zero => omega
  | succ k ih =>
      have hpos : 0 < b ^ k := Nat.pow_pos (by omega)
      have hd : n / b ^ k < b := Nat.div_lt_of_lt_mul (by rwa [pow_succ] at hn)
      by_cases hle : b ^ k ≤ n
      · have hm : 0 < n / b ^ k := Nat.div_pos hle hpos
        simp only [top, hle, true_or, or_true, if_true, List.map_cons]
        rw [← List.singleton_append, ← Nat.toDigits_of_lt_base hd,
          toDigits_append_top hb hm (Nat.mod_lt n hpos), Nat.mul_comm, Nat.div_add_mod]
      · rcases Nat.eq_zero_or_pos k with rfl | hk
        · obtain rfl : n = 0 := by simpa using hle
          simp [top, Nat.toDigits_of_lt_base (show 0 < b by omega)]
        · have hne : k ≠ 0 := by omega
          simp only [top, Bool.false_eq_true, hle, hne, or_self, if_false]
          exact ih hk (by omega)

/-! ## The value of digits -/

/-- One more digit is one more step of Horner's rule. -/
def value (b : ℕ) (ds : List ℕ) (n : ℕ) : ℕ := ds.foldl (fun n d => b * n + d) n

@[simp] theorem value_nil : value b [] n = n := rfl

@[simp] theorem value_cons {d : ℕ} : value b (d :: ds) n = value b ds (b * n + d) := rfl

theorem value_eq_ofDigits : value b ds 0 = Nat.ofDigits b ds.reverse := by
  rw [value, List.foldl_eq_foldr_reverse, Nat.ofDigits_eq_foldr]
  simp [Nat.add_comm]

theorem value_lt (hb : 1 < b) (hds : ∀ d ∈ ds, d < b) : value b ds 0 < b ^ ds.length := by
  rw [value_eq_ofDigits, ← List.length_reverse]
  exact Nat.ofDigits_lt_base_pow_length hb (by simpa using hds)

theorem eq_of_value_eq (hb : 1 < b) (hds : ∀ d ∈ ds, d < b) (hes : ∀ d ∈ es, d < b)
    (hlen : ds.length = es.length) (h : value b ds 0 = value b es 0) : ds = es := by
  rw [value_eq_ofDigits, value_eq_ofDigits] at h
  refine List.reverse_injective (Nat.ofDigits_inj_of_len_eq hb (by simpa using hlen) ?_ ?_ h)
  · simpa using hds
  · simpa using hes

/-- The value of the digits is the number. -/
theorem value_top {started : Bool} (hm : m = 0 ∨ started) (hn : n < b ^ k) :
    value b (top b k n started) m = m * b ^ k + n := by
  induction k generalizing m n started with
  | zero =>
    obtain rfl : n = 0 := by simpa using hn
    simp [top]
  | succ k ih =>
    have hpos : 0 < b ^ k := Nat.pos_of_ne_zero fun h => by simp [pow_succ, h] at hn
    rw [top]
    split
    · rw [value_cons, ih (Or.inr rfl) (Nat.mod_lt n hpos)]
      calc (b * m + n / b ^ k) * b ^ k + n % b ^ k
          = b * m * b ^ k + (b ^ k * (n / b ^ k) + n % b ^ k) := by ring
        _ = m * b ^ (k + 1) + n := by rw [Nat.div_add_mod]; ring
    · rename_i hc
      obtain rfl : m = 0 := hm.resolve_right fun h => hc (Or.inl h)
      rw [ih (Or.inl rfl) (not_le.mp fun h => hc (Or.inr (Or.inl h)))]
      simp

/-- The first digit is a zero for the number zero only. -/
theorem head_top (hn : n < b ^ k) {d : ℕ} (hd : (top b k n false).head? = some d) (h0 : d = 0) :
    n = 0 := by
  induction k generalizing n with
  | zero => simpa using hn
  | succ k ih =>
    rw [top] at hd
    split at hd
    · rename_i hc
      obtain rfl : n / b ^ k = d := by simpa using hd
      rcases hc with hc | hc | rfl
      · simp at hc
      · have hpos : 0 < b ^ k := Nat.pos_of_ne_zero fun h => by simp [pow_succ, h] at hn
        exact absurd h0 (Nat.div_pos hc hpos).ne'
      · simpa using h0
    · rename_i hc
      exact ih (not_le.mp fun h => hc (Or.inr (Or.inl h))) hd

end Digits
