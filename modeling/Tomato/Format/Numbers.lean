import Mathlib.Data.List.TakeWhile
import Tomato.Format.Snprintf
import Tomato.Lib.Digits

/-!
# The texts of numbers

`u64toa_r`, `i64toa_r` and `u64toh_r` write the digits of every number, and never more than
their buffer holds.
-/

namespace Tomato

namespace Snprintf

variable {lim n k pos : ℕ} {buffer : List ℕ}

/-- The bytes of the digits of a number. -/
def numeral (b n : ℕ) : List ℕ := (Nat.toDigits b n).map Char.toNat

theorem limit_eq (h : pos ≤ 19) : limit pos = 10 ^ pos := by
  induction pos with
  | zero => rfl
  | succ pos ih =>
      have hle : 10 ^ (pos + 1) ≤ 10 ^ 19 := Nat.pow_le_pow_right (by omega) h
      rw [limit, ih (by omega), ← pow_succ, Nat.mod_eq_of_lt (by omega)]

/-- Repeated subtraction divides. -/
theorem subtractLimit_eq (hlim : 0 < lim) {fuel dig : ℕ} (hfuel : n < fuel) :
    subtractLimit lim fuel n dig = some (dig + n / lim, n % lim) := by
  induction fuel generalizing n dig with
  | zero => omega
  | succ fuel ih =>
      rw [subtractLimit]
      split
      · rename_i hle
        rw [ih (by omega), Nat.div_eq n lim, Nat.mod_eq n lim, if_pos ⟨hlim, hle⟩,
          if_pos ⟨hlim, hle⟩, Nat.add_assoc, Nat.add_comm 1]
      · rename_i hlt
        rw [Nat.div_eq_of_lt (by omega), Nat.mod_eq_of_lt (by omega), Nat.add_zero]

theorem toNat_digitChar {d : ℕ} (hd : d < 16) : d.digitChar.toNat =
    '0'.toNat + if d > 9 then d + ('a'.toNat - '0'.toNat - 10) else d := by
  interval_cases d <;> rfl

/-- Every round of the loop writes the next digit from the top, unless it is a leading zero. -/
theorem u64toaLoop_eq (hk : k ≤ 20) (hn : n < 10 ^ k) : u64toaLoop k n buffer =
    some (buffer ++ ((Digits.top 10 k n (buffer.length ≠ 0)).map Nat.digitChar).map Char.toNat) := by
  induction k generalizing n buffer with
  | zero => simp [u64toaLoop, Digits.top]
  | succ k ih =>
      have hlim : limit k = 10 ^ k := limit_eq (by omega)
      have hpos : 0 < 10 ^ k := Nat.pow_pos (by omega)
      have hd : n / 10 ^ k < 10 := Nat.div_lt_of_lt_mul (by rwa [pow_succ] at hn)
      have hdigit : (n / 10 ^ k).digitChar.toNat = '0'.toNat + n / 10 ^ k := by
        rw [toNat_digitChar (by omega), if_neg (by omega)]
      rw [u64toaLoop, Digits.top, hlim]
      by_cases hc : buffer.length ≠ 0 ∨ 10 ^ k ≤ n ∨ k = 0
      · rw [if_pos hc, if_pos (by simpa using hc), subtractLimit_eq hpos (Nat.lt_succ_self n),
          Option.bind_some, ih (by omega) (Nat.mod_lt n hpos)]
        simp [hdigit]
      · rw [if_neg hc, if_neg (by simpa using hc), ih (by omega) (by omega)]
        simp only [show ¬ buffer.length ≠ 0 from fun h => hc (Or.inl h), decide_false]

theorem u64toaR_eq (hn : n < 2 ^ 64) : u64toaR n = some (numeral 10 n) := by
  rw [u64toaR, u64toaLoop_eq le_rfl (by omega)]
  simp [Digits.map_top (show 1 < 10 by omega) (show 0 < 20 by omega) (show n < 10 ^ 20 by omega),
    numeral]

/-- The negation of a word is right for the least integer too. -/
theorem toNat_neg_of_neg {v : BitVec 64} (hneg : v.toInt < 0) :
    (-v).toNat = v.toInt.natAbs := by
  have hlt := v.isLt
  rw [BitVec.toInt_eq_toNat_cond] at hneg ⊢
  rw [BitVec.toNat_neg]
  split at hneg <;> split <;> omega

theorem toNat_of_nonneg {v : BitVec 64} (hpos : ¬ v.toInt < 0) : v.toNat = v.toInt.natAbs := by
  have hlt := v.isLt
  rw [BitVec.toInt_eq_toNat_cond] at hpos ⊢
  split at hpos <;> split <;> omega

theorem i64toaR_eq (v : BitVec 64) : i64toaR v =
    some (if v.toInt < 0 then '-'.toNat :: numeral 10 v.toInt.natAbs
      else numeral 10 v.toInt.natAbs) := by
  rw [i64toaR]
  split
  · rename_i hneg
    rw [u64toaR_eq (BitVec.isLt _), toNat_neg_of_neg hneg, Option.map_some]
  · rename_i hpos
    rw [u64toaR_eq v.isLt, toNat_of_nonneg hpos]

/-- The hex digit at a position is that of the number cut off above it. -/
theorem hexDigit_eq (n pos : ℕ) :
    (n >>> (4 * pos)) &&& 0xF = n % 16 ^ (pos + 1) / 16 ^ pos := by
  have h16 : 2 ^ (4 * pos) = 16 ^ pos := by rw [pow_mul]; norm_num
  rw [Nat.shiftRight_eq_div_pow, show (0xF : ℕ) = 2 ^ 4 - 1 by norm_num,
    Nat.and_two_pow_sub_one_eq_mod, h16, show (2 : ℕ) ^ 4 = 16 by norm_num, pow_succ,
    Nat.mod_mul_right_div_self]

theorem u64tohLoop_eq : u64tohLoop n k buffer = buffer ++
    ((Digits.top 16 k (n % 16 ^ k) (buffer.length ≠ 0)).map Nat.digitChar).map Char.toNat := by
  induction k generalizing buffer with
  | zero => simp [u64tohLoop, Digits.top]
  | succ k ih =>
      have hpos : 0 < 16 ^ k := Nat.pow_pos (by omega)
      obtain ⟨d, hd⟩ : ∃ d, d = n % 16 ^ (k + 1) / 16 ^ k := ⟨_, rfl⟩
      have hlt : d < 16 := by
        rw [hd]
        exact Nat.div_lt_of_lt_mul (by rw [← pow_succ]; exact Nat.mod_lt n (Nat.pow_pos (by omega)))
      have hmod : n % 16 ^ (k + 1) % 16 ^ k = n % 16 ^ k :=
        Nat.mod_mod_of_dvd n (pow_dvd_pow 16 (Nat.le_succ k))
      have hdigit := toNat_digitChar hlt
      obtain ⟨shown, hshown⟩ : ∃ shown, shown =
          if d > 9 then d + ('a'.toNat - '0'.toNat - 10) else d := ⟨_, rfl⟩
      have hne : shown ≠ 0 ↔ 16 ^ k ≤ n % 16 ^ (k + 1) := by
        have hzero : d ≠ 0 ↔ 16 ^ k ≤ n % 16 ^ (k + 1) := by
          rw [hd, ← Nat.pos_iff_ne_zero, Nat.div_pos_iff]
          exact ⟨fun h => h.2, fun h => ⟨hpos, h⟩⟩
        rw [← hzero, hshown]
        split <;> omega
      rw [u64tohLoop, hexDigit_eq, ← hd, Digits.top, ← hd, hmod]
      simp only [← hshown]
      by_cases hc : buffer.length ≠ 0 ∨ 16 ^ k ≤ n % 16 ^ (k + 1) ∨ k = 0
      · rw [if_pos (by tauto), if_pos (by simpa using hc), ih]
        simp [hdigit, hshown]
      · rw [if_neg (by tauto), if_neg (by simpa using hc), ih]
        have hsame : n % 16 ^ (k + 1) = n % 16 ^ k :=
          (Nat.mod_eq_of_lt (not_le.mp fun h => hc (Or.inr (Or.inl h)))).symm.trans hmod
        simp only [show ¬ buffer.length ≠ 0 from fun h => hc (Or.inl h), decide_false, hsame]

theorem u64tohR_eq (hn : n < 2 ^ 64) : u64tohR n = numeral 16 n := by
  have h16 : n < 16 ^ 16 := by omega
  rw [u64tohR, u64tohLoop_eq, Nat.mod_eq_of_lt h16]
  simp [Digits.map_top (show 1 < 16 by omega) (show 0 < 16 by omega) h16, numeral]

theorem length_numeral_le {b : ℕ} (hb : 1 < b) (hk : 0 < k) (hn : n < b ^ k) :
    (numeral b n).length ≤ k := by
  rw [numeral, List.length_map]
  exact (Nat.length_toDigits_le_iff hb hk).mpr hn

theorem ne_zero_of_mem_numeral {b c : ℕ} (hb : 1 < b) (hb' : b ≤ 16) (hc : c ∈ numeral b n) :
    c ≠ 0 := by
  obtain ⟨k, hn⟩ : ∃ k, n < b ^ (k + 1) := ⟨n, (Nat.lt_pow_self hb).trans_le
    (Nat.pow_le_pow_right (by omega) (Nat.le_succ n))⟩
  rw [numeral, ← Digits.map_top hb (Nat.succ_pos k) hn] at hc
  simp only [List.mem_map] at hc
  obtain ⟨_, ⟨d, hd, rfl⟩, rfl⟩ := hc
  have hlt : d < b := Digits.lt_of_mem_top hn hd
  rw [toNat_digitChar (by omega)]
  simp

/-! ## The buffer for a number -/

/-- The text of a number, up to a NUL. -/
def numberText (v : BitVec 64) (c : ℕ) : List ℕ :=
  if c = 'c'.toNat then [v.toNat % 2 ^ 8].takeWhile (· ≠ 0)
  else if c = 'd'.toNat then
    if v.toInt < 0 then '-'.toNat :: numeral 10 v.toInt.natAbs else numeral 10 v.toInt.natAbs
  else if c = 'u'.toNat then numeral 10 v.toNat
  else if c = 'p'.toNat then '0'.toNat :: 'x'.toNat :: numeral 16 v.toNat
  else numeral 16 v.toNat

theorem take_strlen (l : List ℕ) : l.take (strlen l) = l.takeWhile (· ≠ 0) :=
  (List.prefix_iff_eq_take.mp (List.takeWhile_prefix _)).symm

theorem takeWhile_of_ne_zero {l : List ℕ} (h : ∀ c ∈ l, c ≠ 0) : l.takeWhile (· ≠ 0) = l :=
  List.takeWhile_eq_self_iff.mpr (by simpa using h)

/-- A short text without a NUL fits into the buffer. -/
theorem tmpbuf_fits {l : List ℕ} (hlen : l.length ≤ 20) (hl : ∀ c ∈ l, c ≠ 0) :
    ∃ m, ((some l).bind fun text => if text.length < 21 then some text else none) = some m ∧
      m.takeWhile (· ≠ 0) = l :=
  ⟨l, by rw [Option.bind_some, if_pos (by omega)], takeWhile_of_ne_zero hl⟩

/-- Every number fits into the buffer. -/
theorem tmpbuf_eq (v : BitVec 64) (c : ℕ) : ∃ l, tmpbuf v c = some l ∧
    l.takeWhile (· ≠ 0) = numberText v c := by
  have hlt := v.isLt
  have hdec : ∀ n, ∀ d ∈ numeral 10 n, d ≠ 0 := fun n d hd =>
    ne_zero_of_mem_numeral (by omega) (by omega) hd
  have hhex : ∀ n, ∀ d ∈ numeral 16 n, d ≠ 0 := fun n d hd =>
    ne_zero_of_mem_numeral (by omega) (by omega) hd
  have habs : (numeral 10 v.toInt.natAbs).length ≤ 19 := by
    refine length_numeral_le (by omega) (by omega) ?_
    have := BitVec.toInt_lt (x := v)
    have := BitVec.le_toInt (x := v)
    omega
  have hten : (numeral 10 v.toNat).length ≤ 20 :=
    length_numeral_le (by omega) (by omega) (by omega)
  have hsixteen : (numeral 16 v.toNat).length ≤ 16 :=
    length_numeral_le (by omega) (by omega) (by omega)
  rw [tmpbuf, numberText]
  split
  · exact ⟨_, rfl, rfl⟩
  · split
    · rw [i64toaR_eq]
      split
      · exact tmpbuf_fits (Nat.succ_le_succ habs) (by simpa using hdec _)
      · exact tmpbuf_fits (by omega) (hdec _)
    · split
      · rw [u64toaR_eq hlt]
        exact tmpbuf_fits hten (hdec _)
      · rw [u64tohR_eq hlt]
        split
        · exact tmpbuf_fits (by simp only [List.length_cons]; omega) (by simpa using hhex _)
        · exact tmpbuf_fits (by omega) (hhex _)

end Snprintf

end Tomato
