import Tomato.Format.Numbers
import Tomato.Format.Rounds

/-!
# The numbers in memory

The bytes that `u64toa_r`, `i64toa_r` and `u64toh_r` write, one by one, into the memory. What
they leave there is the shortest text that a reader of numbers takes for the number.
-/

namespace Tomato

namespace Snprintf

variable {b c d k n : ℕ} {l l' ds : List ℕ} {buffer : ℕ} {mem : ℕ → ℕ} {z : ℤ}

/-! ## Reading numbers -/

/-- The digit that a character is. -/
def digitValue (b c : ℕ) : Option ℕ :=
  if '0'.toNat ≤ c ∧ c ≤ '9'.toNat ∧ c - '0'.toNat < b then some (c - '0'.toNat)
  else if 'a'.toNat ≤ c ∧ c ≤ 'f'.toNat ∧ c - 'a'.toNat + 10 < b then some (c - 'a'.toNat + 10)
  else none

/-- Reads digits, with what was read before them. -/
def parseDigits (b : ℕ) : List ℕ → ℕ → Option ℕ
  | [], n => some n
  | c :: l, n => (digitValue b c).bind fun d => parseDigits b l (b * n + d)

/-- Reads a number, which has a digit. -/
def parse (b : ℕ) (l : List ℕ) : Option ℕ := if l = [] then none else parseDigits b l 0

/-- Reads a number that may be negative. -/
def parseInt (l : List ℕ) : Option ℤ :=
  if l.head? = some '-'.toNat then (parse 10 l.tail).map fun n : ℕ => -(n : ℤ)
  else (parse 10 l).map fun n : ℕ => (n : ℤ)

/-- The text of a number is the shortest there is, and no other is as short. -/
structure IsNumeral (b n : ℕ) (l : List ℕ) : Prop where
  parses : parse b l = some n
  shortest : ∀ l', parse b l' = some n → l.length ≤ l'.length
  unique : ∀ l', parse b l' = some n → l'.length = l.length → l' = l
  lead : l.head? = some '0'.toNat → n = 0

/-- The text of an integer starts with a minus sign if it is negative. -/
structure IsInteger (z : ℤ) (l : List ℕ) : Prop where
  parses : parseInt l = some z
  shortest : ∀ l', parseInt l' = some z → l.length ≤ l'.length
  unique : ∀ l', parseInt l' = some z → l'.length = l.length → l' = l
  sign : l.head? = some '-'.toNat ↔ z < 0
  lead : (if z < 0 then l.tail else l).head? = some '0'.toNat → z = 0

theorem digitValue_eq_some (hb : b ≤ 16) :
    digitValue b c = some d ↔ d < b ∧ c = d.digitChar.toNat := by
  have h0 : '0'.toNat = 48 := rfl
  have ha : 'a'.toNat = 97 := rfl
  have h9 : '9'.toNat = 57 := rfl
  have hf : 'f'.toNat = 102 := rfl
  constructor
  · intro h
    rw [digitValue] at h
    split at h
    · obtain rfl : c - '0'.toNat = d := by simpa using h
      rw [toNat_digitChar (by omega), if_neg (by omega)]
      omega
    · split at h
      · obtain rfl : c - 'a'.toNat + 10 = d := by simpa using h
        rw [toNat_digitChar (by omega), if_pos (by omega)]
        omega
      · simp at h
  · rintro ⟨hd, rfl⟩
    rw [digitValue, toNat_digitChar (hd.trans_le hb)]
    by_cases h : d > 9
    · rw [if_pos h, if_neg (by omega), if_pos (by omega)]
      exact congrArg some (by omega)
    · rw [if_neg h, if_pos (by omega)]
      exact congrArg some (by omega)

/-- What is read is the value of the digits. -/
theorem parseDigits_eq_some (hb : b ≤ 16) {m : ℕ} : parseDigits b l m = some n ↔
    ∃ ds, l = ds.map (fun d => d.digitChar.toNat) ∧ (∀ d ∈ ds, d < b) ∧
      Digits.value b ds m = n := by
  induction l generalizing m with
  | nil =>
    rw [parseDigits]
    constructor
    · intro h
      exact ⟨[], rfl, by simp, by simpa using h⟩
    · rintro ⟨ds, hl, -, hv⟩
      obtain rfl : ds = [] := by simpa using hl.symm
      simpa using hv
  | cons c l ih =>
    rw [parseDigits, Option.bind_eq_some_iff]
    constructor
    · rintro ⟨d, hd, h⟩
      obtain ⟨hlt, rfl⟩ := (digitValue_eq_some hb).mp hd
      obtain ⟨ds, rfl, hds, hv⟩ := ih.mp h
      exact ⟨d :: ds, rfl, by simpa using ⟨hlt, hds⟩, hv⟩
    · rintro ⟨ds, hl, hds, hv⟩
      cases ds with
      | nil => simp at hl
      | cons d ds =>
        obtain ⟨rfl, rfl⟩ : c = d.digitChar.toNat ∧ l = ds.map fun d => d.digitChar.toNat := by
          simpa using hl
        have hlt : d < b := hds d (by simp)
        exact ⟨d, (digitValue_eq_some hb).mpr ⟨hlt, rfl⟩,
          ih.mpr ⟨ds, rfl, fun e he => hds e (List.mem_cons_of_mem _ he), hv⟩⟩

theorem parse_eq_some (hb : b ≤ 16) : parse b l = some n ↔
    l ≠ [] ∧ ∃ ds, l = ds.map (fun d => d.digitChar.toNat) ∧ (∀ d ∈ ds, d < b) ∧
      Digits.value b ds 0 = n := by
  rw [parse, ← parseDigits_eq_some hb]
  split
  · rename_i h
    simp [h]
  · rename_i h
    simp [h]

/-! ## The texts -/

theorem exists_digits (hb : 1 < b) (n : ℕ) : ∃ ds : List ℕ,
    numeral b n = ds.map (fun d => d.digitChar.toNat) ∧ (∀ d ∈ ds, d < b) ∧
      Digits.value b ds 0 = n ∧ (ds.head? = some 0 → n = 0) := by
  obtain ⟨k, hn⟩ : ∃ k, n < b ^ (k + 1) := ⟨n, (Nat.lt_pow_self hb).trans_le
    (Nat.pow_le_pow_right (by omega) (Nat.le_succ n))⟩
  refine ⟨Digits.top b (k + 1) n false, ?_, fun d hd => Digits.lt_of_mem_top hn hd, ?_, ?_⟩
  · rw [numeral, ← Digits.map_top hb (Nat.succ_pos k) hn, List.map_map]
    rfl
  · rw [Digits.value_top (Or.inl rfl) hn]
    simp
  · exact fun h => Digits.head_top hn h rfl

theorem numeral_ne_nil : numeral b n ≠ [] := by
  simp [numeral]

theorem digitChar_eq_zero_iff (hd : d < 16) : d.digitChar.toNat = '0'.toNat ↔ d = 0 := by
  rw [toNat_digitChar hd]
  split
  · simp
    omega
  · simp

theorem isNumeral_numeral (hb : 1 < b) (hb' : b ≤ 16) (n : ℕ) : IsNumeral b n (numeral b n) := by
  obtain ⟨ds, hl, hds, hv, hlead⟩ := exists_digits hb n
  refine ⟨(parse_eq_some hb').mpr ⟨numeral_ne_nil, ds, hl, hds, hv⟩, fun l' h => ?_,
    fun l' h hlen => ?_, fun h => hlead ?_⟩
  · obtain ⟨hne, es, rfl, hes, rfl⟩ := (parse_eq_some hb').mp h
    rw [List.length_map]
    have hpos : 0 < es.length := List.length_pos_of_ne_nil (by simpa using hne)
    exact length_numeral_le hb hpos (Digits.value_lt hb hes)
  · obtain ⟨-, es, rfl, hes, hv'⟩ := (parse_eq_some hb').mp h
    rw [hl] at hlen ⊢
    rw [Digits.eq_of_value_eq hb hes hds (by simpa using hlen) (hv'.trans hv.symm)]
  · rw [hl, List.head?_map, Option.map_eq_some_iff] at h
    obtain ⟨d, hd, h0⟩ := h
    have hlt : d < b := hds d (List.mem_of_head? hd)
    rwa [(digitChar_eq_zero_iff (by omega)).mp h0] at hd

/-- No text of a number starts with a minus sign. -/
theorem head_ne_of_parse (hb : b ≤ 16) (h : parse b l = some n) : l.head? ≠ some '-'.toNat := by
  obtain ⟨-, ds, rfl, hds, -⟩ := (parse_eq_some hb).mp h
  intro hd
  rw [List.head?_map, Option.map_eq_some_iff] at hd
  obtain ⟨d, hd, h0⟩ := hd
  have hlt : d < b := hds d (List.mem_of_head? hd)
  rw [toNat_digitChar (by omega)] at h0
  simp at h0
  omega

/-- The text of an integer. -/
def integerText (z : ℤ) : List ℕ :=
  if z < 0 then '-'.toNat :: numeral 10 z.natAbs else numeral 10 z.natAbs

/-- An integer is read from its digits, or from a minus sign and the digits. -/
theorem parseInt_eq_some : parseInt l = some z ↔
    (∃ t n, l = '-'.toNat :: t ∧ parse 10 t = some n ∧ z = -(n : ℤ)) ∨
      ∃ n, parse 10 l = some n ∧ z = (n : ℤ) := by
  rw [parseInt]
  constructor
  · intro h
    split at h
    · rename_i hd
      obtain ⟨t, rfl⟩ := List.head?_eq_some_iff.mp hd
      obtain ⟨n, hn, rfl⟩ := Option.map_eq_some_iff.mp h
      exact Or.inl ⟨t, n, rfl, hn, rfl⟩
    · obtain ⟨n, hn, rfl⟩ := Option.map_eq_some_iff.mp h
      exact Or.inr ⟨n, hn, rfl⟩
  · rintro (⟨t, n, rfl, hn, rfl⟩ | ⟨n, hn, rfl⟩)
    · rw [if_pos (by simp), List.tail_cons, hn, Option.map_some]
    · rw [if_neg (head_ne_of_parse (by omega) hn), hn, Option.map_some]

theorem isInteger_integerText (z : ℤ) : IsInteger z (integerText z) := by
  have hnum : IsNumeral 10 z.natAbs (numeral 10 z.natAbs) :=
    isNumeral_numeral (by omega) (by omega) _
  have hne := head_ne_of_parse (by omega) hnum.parses
  rw [integerText]
  by_cases hz : z < 0
  · rw [if_pos hz]
    refine ⟨parseInt_eq_some.mpr (Or.inl ⟨_, _, rfl, hnum.parses, by omega⟩), fun l' h => ?_,
      fun l' h hlen => ?_, by simpa using hz, fun h => ?_⟩
    · rcases parseInt_eq_some.mp h with ⟨t, n, rfl, hn, rfl⟩ | ⟨n, hn, rfl⟩
      · exact Nat.succ_le_succ (hnum.shortest t (by simpa using hn))
      · omega
    · rcases parseInt_eq_some.mp h with ⟨t, n, rfl, hn, rfl⟩ | ⟨n, hn, rfl⟩
      · rw [hnum.unique t (by simpa using hn) (by simpa using hlen)]
      · omega
    · rw [if_pos hz] at h
      have hlead := hnum.lead h
      omega
  · rw [if_neg hz]
    refine ⟨parseInt_eq_some.mpr (Or.inr ⟨_, hnum.parses, by omega⟩), fun l' h => ?_,
      fun l' h hlen => ?_, iff_of_false hne hz, fun h => ?_⟩
    · rcases parseInt_eq_some.mp h with ⟨t, n, rfl, hn, rfl⟩ | ⟨n, hn, rfl⟩
      · exact Nat.le_succ_of_le (hnum.shortest t (by simpa using hn))
      · exact hnum.shortest l' (by simpa using hn)
    · rcases parseInt_eq_some.mp h with ⟨t, n, rfl, hn, rfl⟩ | ⟨n, hn, rfl⟩
      · have hle := hnum.shortest t (by simpa using hn)
        rw [List.length_cons] at hlen
        omega
      · exact hnum.unique l' (by simpa using hn) hlen
    · rw [if_neg hz] at h
      have hlead := hnum.lead h
      omega

/-! ## Writing numbers -/

/-- The loop of `u64toa_r` in memory, with the number of digits so far. -/
def u64toaWriteLoop (buffer : ℕ) : ℕ → ℕ → ℕ → (ℕ → ℕ) → Option (ℕ × (ℕ → ℕ))
  | 0, _, digits, mem => some (digits, mem)
  | pos + 1, n, digits, mem =>
    if digits ≠ 0 ∨ limit pos ≤ n ∨ pos = 0 then
      (subtractLimit (limit pos) (n + 1) n 0).bind fun r =>
        u64toaWriteLoop buffer pos r.2 (digits + 1)
          (Function.update mem (buffer + digits) ('0'.toNat + r.1))
    else u64toaWriteLoop buffer pos n digits mem

/-- The length that `u64toa_r` returns, and the memory. -/
def u64toaWrite (n buffer : ℕ) (mem : ℕ → ℕ) : Option (ℕ × (ℕ → ℕ)) :=
  (u64toaWriteLoop buffer 20 n 0 mem).map fun r =>
    (r.1, Function.update r.2 (buffer + r.1) 0)

def i64toaWrite (n : BitVec 64) (buffer : ℕ) (mem : ℕ → ℕ) : Option (ℕ × (ℕ → ℕ)) :=
  if n.toInt < 0 then
    (u64toaWrite (-n).toNat (buffer + 1) (Function.update mem buffer '-'.toNat)).map fun r =>
      (1 + r.1, r.2)
  else u64toaWrite n.toNat buffer mem

/-- The loop of `u64toh_r` in memory. -/
def u64tohWriteLoop (buffer n : ℕ) : ℕ → ℕ → (ℕ → ℕ) → ℕ × (ℕ → ℕ)
  | 0, digits, mem => (digits, mem)
  | pos + 1, digits, mem =>
    let dig := (n >>> (4 * pos)) &&& 0xF
    let shown := if dig > 9 then dig + ('a'.toNat - '0'.toNat - 10) else dig
    if shown ≠ 0 ∨ digits ≠ 0 ∨ pos = 0 then
      u64tohWriteLoop buffer n pos (digits + 1)
        (Function.update mem (buffer + digits) ('0'.toNat + shown))
    else u64tohWriteLoop buffer n pos digits mem

def u64tohWrite (n buffer : ℕ) (mem : ℕ → ℕ) : ℕ × (ℕ → ℕ) :=
  let r := u64tohWriteLoop buffer n 16 0 mem
  (r.1, Function.update r.2 (buffer + r.1) 0)

/-- What `kvsnprintf` writes to `tmpbuf` for a conversion of a number. -/
def tmpbufWrite (v : BitVec 64) (c tmpbuf : ℕ) (mem : ℕ → ℕ) : Option (ℕ → ℕ) :=
  if c = 'c'.toNat then
    some (Function.update (Function.update mem tmpbuf (v.toNat % 2 ^ 8)) (tmpbuf + 1) 0)
  else if c = 'd'.toNat then (i64toaWrite v tmpbuf mem).map fun r => r.2
  else if c = 'u'.toNat then (u64toaWrite v.toNat tmpbuf mem).map fun r => r.2
  else if c = 'p'.toNat then
    some (u64tohWrite v.toNat (tmpbuf + 2)
      (Function.update (Function.update mem tmpbuf '0'.toNat) (tmpbuf + 1) 'x'.toNat)).2
  else some (u64tohWrite v.toNat tmpbuf mem).2

theorem store_nil : store mem buffer [] = mem := by
  funext i
  simp [store]

theorem update_eq_store : Function.update mem buffer c = store mem buffer [c] := by
  funext i
  rcases Nat.lt_trichotomy i buffer with h | rfl | h
  · rw [Function.update_of_ne h.ne, store, if_neg (by omega)]
  · rw [Function.update_self, store, if_pos le_rfl, Nat.sub_self]
    rfl
  · have hlen : [c].length ≤ i - buffer := by
      rw [List.length_singleton]
      omega
    rw [Function.update_of_ne h.ne', store, if_pos h.le, List.getElem?_eq_none hlen,
      Option.getD_none]

/-- One more byte is written behind the others. -/
theorem update_store : Function.update (store mem buffer l) (buffer + l.length) c =
    store mem buffer (l ++ [c]) := by
  rw [update_eq_store, store_append]

/-- The loop writes what it collects. -/
theorem u64toaWriteLoop_eq : u64toaWriteLoop buffer k n l.length (store mem buffer l) =
    (u64toaLoop k n l).map fun l => (l.length, store mem buffer l) := by
  induction k generalizing n l with
  | zero => rfl
  | succ k ih =>
    rw [u64toaWriteLoop, u64toaLoop]
    split
    · rw [Option.map_bind]
      refine congrArg _ (funext fun r => ?_)
      have h := ih (n := r.2) (l := l ++ ['0'.toNat + r.1])
      rwa [List.length_append, List.length_singleton, ← update_store] at h
    · exact ih

theorem u64toaWrite_eq (hn : n < 2 ^ 64) : u64toaWrite n buffer mem =
    some ((numeral 10 n).length, store mem buffer (numeral 10 n ++ [0])) := by
  have hloop : u64toaWriteLoop buffer 20 n 0 (store mem buffer []) =
      (u64toaLoop 20 n []).map fun l => (l.length, store mem buffer l) :=
    u64toaWriteLoop_eq (l := [])
  rw [store_nil] at hloop
  rw [u64toaWrite, hloop, ← u64toaR, u64toaR_eq hn, Option.map_some, Option.map_some, update_store]

theorem i64toaWrite_eq (v : BitVec 64) : i64toaWrite v buffer mem =
    some ((integerText v.toInt).length, store mem buffer (integerText v.toInt ++ [0])) := by
  rw [i64toaWrite, integerText]
  split
  · rename_i hneg
    rw [u64toaWrite_eq (BitVec.isLt _), toNat_neg_of_neg hneg, Option.map_some, update_eq_store,
      ← List.length_singleton (a := '-'.toNat), store_append, ← List.length_append]
    rfl
  · rename_i hpos
    rw [u64toaWrite_eq v.isLt, toNat_of_nonneg hpos]

theorem u64tohWriteLoop_eq : u64tohWriteLoop buffer n k l.length (store mem buffer l) =
    ((u64tohLoop n k l).length, store mem buffer (u64tohLoop n k l)) := by
  induction k generalizing l with
  | zero => rfl
  | succ k ih =>
    rw [u64tohWriteLoop, u64tohLoop]
    obtain ⟨shown, hshown⟩ : ∃ shown, shown = if (n >>> (4 * k)) &&& 0xF > 9 then
        ((n >>> (4 * k)) &&& 0xF) + ('a'.toNat - '0'.toNat - 10) else (n >>> (4 * k)) &&& 0xF :=
      ⟨_, rfl⟩
    simp only [← hshown]
    split
    · have h := ih (l := l ++ ['0'.toNat + shown])
      rwa [List.length_append, List.length_singleton, ← update_store] at h
    · exact ih

theorem u64tohWrite_eq (hn : n < 2 ^ 64) : u64tohWrite n buffer mem =
    ((numeral 16 n).length, store mem buffer (numeral 16 n ++ [0])) := by
  have hloop : u64tohWriteLoop buffer n 16 0 (store mem buffer []) =
      ((u64tohLoop n 16 []).length, store mem buffer (u64tohLoop n 16 [])) :=
    u64tohWriteLoop_eq (l := [])
  rw [store_nil, ← u64tohR, u64tohR_eq hn] at hloop
  rw [u64tohWrite, hloop, update_store]

theorem length_integerText_le (v : BitVec 64) : (integerText v.toInt).length ≤ 20 := by
  have habs : (numeral 10 v.toInt.natAbs).length ≤ 19 := by
    refine length_numeral_le (by omega) (by omega) ?_
    have := BitVec.toInt_lt (x := v)
    have := BitVec.le_toInt (x := v)
    omega
  rw [integerText]
  split
  · exact Nat.succ_le_succ habs
  · omega

/-- What is written to `tmpbuf` is the text that is printed from there, and it fits. -/
theorem tmpbufWrite_eq (v : BitVec 64) (c : ℕ) : ∃ l, tmpbuf v c = some l ∧ l.length + 1 ≤ 21 ∧
    tmpbufWrite v c buffer mem = some (store mem buffer (l ++ [0])) := by
  have hlt := v.isLt
  have hten : (numeral 10 v.toNat).length ≤ 20 :=
    length_numeral_le (by omega) (by omega) (by omega)
  have hsixteen : (numeral 16 v.toNat).length ≤ 16 :=
    length_numeral_le (by omega) (by omega) (by omega)
  have hint := length_integerText_le v
  have hfits : ∀ l : List ℕ, l.length ≤ 20 →
      ((some l).bind fun text => if text.length < 21 then some text else none) = some l :=
    fun l hl => if_pos (Nat.lt_succ_of_le hl)
  rw [tmpbuf, tmpbufWrite]
  split
  · refine ⟨[v.toNat % 2 ^ 8], rfl, by simp, ?_⟩
    rw [update_eq_store, update_eq_store, ← List.length_singleton (a := v.toNat % 2 ^ 8),
      store_append]
  · split
    · refine ⟨_, by rw [i64toaR_eq, ← integerText]; exact hfits _ hint, by omega, ?_⟩
      rw [i64toaWrite_eq, Option.map_some]
    · split
      · refine ⟨_, by rw [u64toaR_eq hlt]; exact hfits _ hten, by omega, ?_⟩
        rw [u64toaWrite_eq hlt, Option.map_some]
      · split
        · refine ⟨'0'.toNat :: 'x'.toNat :: numeral 16 v.toNat, ?_, ?_, ?_⟩
          · rw [u64tohR_eq hlt]
            exact hfits _ (by simp only [List.length_cons]; omega)
          · simp only [List.length_cons]
            omega
          · rw [u64tohWrite_eq hlt, update_eq_store, update_eq_store,
              ← List.length_singleton (a := '0'.toNat), store_append]
            exact congrArg some (store_append mem buffer ['0'.toNat, 'x'.toNat] _)
        · refine ⟨_, by rw [u64tohR_eq hlt]; exact hfits _ (by omega), by omega, ?_⟩
          rw [u64tohWrite_eq hlt]

/-- Every number is written as its shortest text with a NUL behind it, which fits into 21 bytes,
or 19 with the prefix of a pointer, and nothing else is written. -/
theorem numbers_roundTrip (v : BitVec 64) (buffer : ℕ) (mem : ℕ → ℕ) :
    (∃ l, u64toaWrite v.toNat buffer mem = some (l.length, store mem buffer (l ++ [0])) ∧
      IsNumeral 10 v.toNat l ∧ l.length + 1 ≤ 21) ∧
    (∃ l, i64toaWrite v buffer mem = some (l.length, store mem buffer (l ++ [0])) ∧
      IsInteger v.toInt l ∧ l.length + 1 ≤ 21) ∧
    (∃ l, u64tohWrite v.toNat buffer mem = (l.length, store mem buffer (l ++ [0])) ∧
      IsNumeral 16 v.toNat l ∧ 2 + l.length + 1 ≤ 19) ∧
    ∀ c, ∃ l, tmpbuf v c = some l ∧ l.length + 1 ≤ 21 ∧
      tmpbufWrite v c buffer mem = some (store mem buffer (l ++ [0])) := by
  have hlt := v.isLt
  refine ⟨⟨_, u64toaWrite_eq hlt, isNumeral_numeral (by omega) (by omega) _, ?_⟩,
    ⟨_, i64toaWrite_eq v, isInteger_integerText _, ?_⟩,
    ⟨_, u64tohWrite_eq hlt, isNumeral_numeral (by omega) (by omega) _, ?_⟩, tmpbufWrite_eq v⟩
  · exact Nat.succ_le_succ (length_numeral_le (by omega) (by omega) (by omega))
  · exact Nat.succ_le_succ (length_integerText_le v)
  · have hle : (numeral 16 v.toNat).length ≤ 16 :=
      length_numeral_le (by omega) (by omega) (by omega)
    omega

end Snprintf

end Tomato
