import Tomato.Format.Directives

/-!
# The rounds of the formatter

What one round of the loop of `kvsnprintf` does: it queues a character, or it reads a
conversion, and it prints a text by `emit`, which drops what does not fit.
-/

namespace Tomato

namespace Snprintf

variable {f : CString} {args : VaList} {s t u : State} {a b l rest : List ℕ}
  {c i j pad width len fuel : ℕ}

/-! ## Printing -/

theorem store_append (mem : ℕ → ℕ) (out : ℕ) (a b : List ℕ) :
    store (store mem out a) (out + a.length) b = store mem out (a ++ b) := by
  funext i
  simp only [store]
  by_cases hi : out ≤ i
  · by_cases hj : out + a.length ≤ i
    · rw [if_pos hj, if_pos hi, if_pos hi, List.getElem?_append_right (by omega),
        show i - (out + a.length) = i - out - a.length by omega,
        List.getElem?_eq_none (show a.length ≤ i - out by omega), Option.getD_none]
    · rw [if_neg hj, if_pos hi, if_pos hi, List.getElem?_append_left (by omega)]
  · rw [if_neg (by omega), if_neg hi, if_neg hi]

/-- A text is printed as far as it fits. -/
def State.emit (s : State) (bytes : List ℕ) : State :=
  { s with
    mem := store s.mem s.out (bytes.take s.n)
    out := s.out + (bytes.take s.n).length
    n := s.n - bytes.length
    written := (s.written + bytes.length) % 2 ^ 64 }

theorem emit_append : (s.emit a).emit b = s.emit (a ++ b) := by
  have htake : a.take s.n ++ b.take (s.n - a.length) = (a ++ b).take s.n := by
    rw [List.take_append]
  simp only [State.emit, store_append, htake, List.length_append, Nat.sub_sub]
  congr 1
  · rw [← htake, List.length_append, Nat.add_assoc]
  · rw [Nat.mod_add_mod, Nat.add_assoc]

theorem flushStr_eq (h : len ≤ l.length) : flushStr s pad width l len =
    some (s.emit (List.replicate (width - len) pad ++ l.take len)) := by
  have hpad : (if width > len then width - len else 0) = width - len := by
    split <;> omega
  obtain ⟨k, hk⟩ : ∃ k, k = width - len := ⟨_, rfl⟩
  have hp : (if k < s.n then k else s.n) = min s.n k := by
    split <;> omega
  have hw : ∀ n, (if len < n then len else n) = min n len := by
    intro n
    split <;> omega
  have htake : (List.replicate k pad ++ l.take len).take s.n =
      List.replicate (min s.n k) pad ++ l.take (min (s.n - min s.n k) len) := by
    rw [List.take_append, List.take_replicate, List.length_replicate, List.take_take]
    congr 3
    omega
  have hlen : (List.replicate (min s.n k) pad).length = min s.n k := List.length_replicate
  rw [flushStr, hpad, ← hk, hp]
  simp only [hw]
  rw [if_neg (by omega), State.emit, htake]
  congr 2
  · nth_rewrite 2 [← hlen]
    exact store_append s.mem s.out _ _
  · rw [List.length_append, hlen, List.length_take]
    omega
  · rw [List.length_append, List.length_replicate, List.length_take]
    omega
  · rw [List.length_append, List.length_replicate, List.length_take, Nat.min_eq_left h]

/-- What the state is after a text was printed and some arguments were taken. -/
structure Emitted (s t : State) (bytes : List ℕ) (k : ℕ) : Prop where
  mem : t.mem = (s.emit bytes).mem
  out : t.out = (s.emit bytes).out
  n : t.n = (s.emit bytes).n
  written : t.written = (s.emit bytes).written
  arg : t.arg = s.arg + k

theorem Emitted.refl (hs : s.written < 2 ^ 64) : Emitted s s [] 0 := by
  refine ⟨?_, by simp [State.emit], rfl, (Nat.mod_eq_of_lt hs).symm, rfl⟩
  funext i
  simp [State.emit, store]

theorem Emitted.written_lt (h : Emitted s t a i) : t.written < 2 ^ 64 := by
  rw [h.written]
  exact Nat.mod_lt _ (Nat.two_pow_pos 64)

theorem Emitted.trans (h : Emitted s t a i) (h' : Emitted t u b j) :
    Emitted s u (a ++ b) (i + j) := by
  have heq : ∀ r : State, r.mem = t.mem → r.out = t.out → r.n = t.n → r.written = t.written →
      (t.emit b).mem = (r.emit b).mem ∧ (t.emit b).out = (r.emit b).out ∧
      (t.emit b).n = (r.emit b).n ∧ (t.emit b).written = (r.emit b).written := by
    intro r h1 h2 h3 h4
    simp [State.emit, h1, h2, h3, h4]
  obtain ⟨h1, h2, h3, h4⟩ := heq (s.emit a) h.mem.symm h.out.symm h.n.symm h.written.symm
  rw [emit_append] at h1 h2 h3 h4
  exact ⟨h'.mem.trans h1, h'.out.trans h2, h'.n.trans h3, h'.written.trans h4,
    by rw [h'.arg, h.arg, Nat.add_assoc]⟩

/-! ## Reading the format -/

theorem charAt_of_formatFrom (h : formatFrom f i = c :: l) :
    charAt f i = some c ∧ formatFrom f (i + 1) = l := by
  rw [formatFrom] at h
  constructor
  · rw [charAt, ← List.head?_drop, h, List.head?_cons]
  · rw [formatFrom, ← List.tail_drop, h, List.tail_cons]

theorem formatFrom_append (h : formatFrom f i = a ++ l) : formatFrom f (i + a.length) = l := by
  rw [formatFrom] at h
  rw [formatFrom, ← List.drop_drop, h, List.drop_left]

variable {x y fmt offset : ℕ} {p : Spec}

theorem scanPad_eq {zero : Bool} (hy : zero = false → y ≠ '0'.toNat)
    (h : (if zero then ['0'.toNat] else []) ++ y :: l = x :: rest)
    (hf : formatFrom f (fmt + offset) = rest) :
    scanPad f fmt x offset = some ⟨y, offset + (if zero then ['0'.toNat] else []).length,
      if zero then '0'.toNat else ' '.toNat⟩ := by
  cases zero with
  | true =>
    obtain ⟨rfl, rfl⟩ := List.cons.inj h
    simp only [scanPad, if_true] at hf ⊢
    rw [(charAt_of_formatFrom hf).1]
    rfl
  | false =>
    obtain ⟨rfl, rfl⟩ := List.cons.inj h
    rw [scanPad, if_neg (hy rfl)]
    rfl

theorem scanWidth_eq (ha : ∀ d ∈ a, IsDigit d) (hy : ¬ IsDigit y) {w : ℕ} (hfuel : a.length < fuel)
    (h : a ++ y :: l = x :: rest) (hf : formatFrom f (fmt + offset) = rest) :
    scanWidth f fmt fuel x offset w = some ⟨y, offset + a.length,
      a.foldl (fun w c => (w * 10 % 2 ^ 64 + (c - '0'.toNat)) % 2 ^ 64) w⟩ := by
  induction a generalizing fuel x offset w rest with
  | nil =>
    obtain ⟨fuel, rfl⟩ : ∃ n, fuel = n + 1 := ⟨fuel - 1, by simp at hfuel; omega⟩
    obtain ⟨rfl, rfl⟩ := List.cons.inj h
    rw [scanWidth]
    exact if_neg hy
  | cons d a ih =>
    obtain ⟨fuel, rfl⟩ : ∃ n, fuel = n + 1 := ⟨fuel - 1, by simp at hfuel; omega⟩
    obtain ⟨rfl, rfl⟩ := List.cons.inj h
    have hd : '0'.toNat ≤ d ∧ d ≤ '9'.toNat := ha d (by simp)
    obtain ⟨z, r, hr⟩ : ∃ z r, a ++ y :: l = z :: r := by
      cases a <;> simp
    rw [scanWidth, if_pos hd]
    change formatFrom f (fmt + offset) = a ++ y :: l at hf
    rw [hr] at hf
    obtain ⟨h1, h2⟩ := charAt_of_formatFrom hf
    rw [h1, Option.bind_some, ih (fun e he => ha e (by simp [he])) (by simpa using hfuel) hr h2]
    simp only [List.foldl_cons, List.length_cons, Nat.add_assoc, Nat.add_comm 1]

theorem scanLong_eq {k m : ℕ} (hy : y ≠ 'l'.toNat) (hfuel : k < fuel)
    (h : List.replicate k 'l'.toNat ++ y :: l = x :: rest)
    (hf : formatFrom f (fmt + offset) = rest) :
    scanLong f fmt fuel x offset m = some ⟨y, offset + k, m + k⟩ := by
  induction k generalizing fuel x offset m rest with
  | zero =>
    obtain ⟨fuel, rfl⟩ : ∃ n, fuel = n + 1 := ⟨fuel - 1, by omega⟩
    obtain ⟨rfl, rfl⟩ := List.cons.inj h
    rw [scanLong]
    exact if_neg hy
  | succ k ih =>
    obtain ⟨fuel, rfl⟩ : ∃ n, fuel = n + 1 := ⟨fuel - 1, by omega⟩
    rw [List.replicate_succ] at h
    obtain ⟨rfl, rfl⟩ := List.cons.inj h
    obtain ⟨z, r, hr⟩ : ∃ z r, List.replicate k 'l'.toNat ++ y :: l = z :: r := by
      cases k <;> simp [List.replicate_succ]
    rw [scanLong, if_pos rfl]
    change formatFrom f (fmt + offset) = List.replicate k 'l'.toNat ++ y :: l at hf
    rw [hr] at hf
    obtain ⟨h1, h2⟩ := charAt_of_formatFrom hf
    rw [h1, Option.bind_some, ih (by omega) hr h2]
    congr 2 <;> omega

theorem scanSize_eq {size : Bool} {m : ℕ} (hs : size = true → m = 0)
    (hy : size = false → y = 'z'.toNat → m ≠ 0)
    (h : (if size then ['z'.toNat] else []) ++ y :: l = x :: rest)
    (hf : formatFrom f (fmt + offset) = rest) :
    scanSize f fmt x offset m = some ⟨y, offset + (if size then ['z'.toNat] else []).length,
      if size then 1 else m⟩ := by
  cases size with
  | true =>
    obtain ⟨rfl, rfl⟩ := List.cons.inj h
    simp only [if_true] at hf ⊢
    rw [scanSize, if_pos ⟨rfl, hs rfl⟩, (charAt_of_formatFrom hf).1]
    rfl
  | false =>
    obtain ⟨rfl, rfl⟩ := List.cons.inj h
    rw [scanSize, if_neg fun h => hy rfl h.1 h.2]
    rfl

/-- What was scanned is behind the offset then. -/
theorem formatFrom_scan (h : a ++ y :: l = x :: rest) (hf : formatFrom f (fmt + offset) = rest) :
    formatFrom f (fmt + (offset + a.length)) = l := by
  cases a with
  | nil =>
    obtain ⟨rfl, rfl⟩ := List.cons.inj h
    exact hf
  | cons z a =>
    obtain ⟨rfl, rfl⟩ := List.cons.inj h
    change formatFrom f (fmt + offset) = a ++ y :: l at hf
    have h2 := formatFrom_append hf
    rw [show fmt + (offset + (z :: a).length) = fmt + offset + a.length + 1 by
      rw [List.length_cons]; omega]
    exact (charAt_of_formatFrom h2).2

/-- A specification is read as it stands in the format. -/
theorem escapeRound_eq (hp : p.Ok) (hc : p.Ends c) (hlpref : s.lpref = 0)
    (hfuel : p.chars.length < fuel) (h : p.chars ++ c :: l = x :: rest)
    (hf : formatFrom f (s.fmt + s.offset) = rest) :
    escapeRound f args fuel s x = convert f args
      { s with escape := false, offset := s.offset + p.chars.length, lpref := p.lpref }
      c p.pad p.width := by
  have hcons : ∀ (a : List ℕ) (y : ℕ) (l : List ℕ), ∃ z r, a ++ y :: l = z :: r := by
    intro a y l
    cases a <;> simp
  rw [Spec.chars, List.append_assoc, List.append_assoc, List.append_assoc] at h
  obtain ⟨y3, l3, h3⟩ := hcons (if p.size then ['z'.toNat] else []) c l
  obtain ⟨y2, l2, h2⟩ := hcons (List.replicate p.long 'l'.toNat) y3 l3
  obtain ⟨y1, l1, h1⟩ := hcons p.digits y2 l2
  rw [← h3] at h2
  rw [← h2] at h1
  have hlen : p.digits.length < fuel ∧ p.long < fuel := by
    simp only [Spec.chars, List.length_append, List.length_replicate] at hfuel
    omega
  have hsize : p.size = false → c = 'z'.toNat → s.lpref + p.long ≠ 0 := by
    intro hs hz
    have := (hc.size hz).resolve_left (by simp [hs])
    omega
  have hlong : p.size = true → s.lpref + p.long = 0 := by
    intro hs
    rw [hlpref, hp.size hs]
  have f1 := formatFrom_scan (h1 ▸ h) hf
  have f2 := formatFrom_scan (h2 ▸ h1) f1
  have f3 := formatFrom_scan (h3 ▸ h2) f2
  rw [List.length_replicate] at f3
  simp only [escapeRound, Option.bind_eq_bind]
  rw [scanPad_eq (hc.digits_first hp h1) (h1 ▸ h) hf, Option.bind_some,
    scanWidth_eq hp.digits (hc.long_first h2) hlen.1 (h2 ▸ h1) f1, Option.bind_some,
    scanLong_eq (hc.size_first h3) hlen.2 (h3 ▸ h2) f2, Option.bind_some,
    scanSize_eq hlong hsize h3 f3, Option.bind_some]
  simp only [Spec.chars, Spec.lpref, Spec.pad, Spec.width, hlpref, Nat.zero_add,
    List.length_append, List.length_replicate, Nat.add_assoc]

end Snprintf

end Tomato
