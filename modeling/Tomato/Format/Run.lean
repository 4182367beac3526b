import Tomato.Format.Rounds

/-!
# The run of the formatter

`kvsnprintf` prints the texts of the directives of its format one after the other, for every
format and every buffer. What does not fit is dropped.
-/

namespace Tomato

open Snprintf

namespace Snprintf

variable {f : CString} {args : VaList} {s t u : State} {q l : List ℕ} {c fuel : ℕ} {p : Spec}
  {ds : List Directive} {d : Directive}

/-- Some characters were queued, the format goes on with others. -/
structure Queued (f : CString) (s : State) (q l : List ℕ) : Prop where
  escape : s.escape = false
  offset : s.offset = q.length
  format : formatFrom f s.fmt = q ++ l

/-- A `%` was read. -/
structure InEscape (f : CString) (s : State) (l : List ℕ) : Prop where
  escape : s.escape = true
  offset : s.offset = 0
  lpref : s.lpref = 0
  pos : s.fmt ≠ 0
  format : formatFrom f (s.fmt - 1) = '%'.toNat :: l

theorem InEscape.next (h : InEscape f s l) : formatFrom f (s.fmt + s.offset) = l := by
  have := (charAt_of_formatFrom h.format).2
  rwa [Nat.sub_add_cancel (Nat.pos_of_ne_zero h.pos), ← Nat.add_zero s.fmt, ← h.offset] at this

theorem flush_eq {pad width len : ℕ} (h : len ≤ l.length) : flush s c pad width l len =
    some (if c = 0 then (true, s.emit (List.replicate (width - len) pad ++ l.take len))
      else (false, { s.emit (List.replicate (width - len) pad ++ l.take len) with
        fmt := s.fmt + s.offset, offset := 0 })) := by
  rw [flush, flushStr_eq h]
  rfl

/-! ## Literal characters -/

theorem Queued.next (h : Queued f s q (c :: l)) : charAt f (s.fmt + s.offset) = some c ∧
    formatFrom f (s.fmt + (s.offset + 1)) = l := by
  have := formatFrom_append h.format
  rw [← h.offset] at this
  exact charAt_of_formatFrom this

variable (args fuel) in
theorem round_char (h : Queued f s q (c :: l)) (h0 : c ≠ 0) (hc : c ≠ '%'.toNat) :
    round f args fuel s = some (false, { s with offset := s.offset + 1 }) ∧
      Queued f { s with offset := s.offset + 1 } (q ++ [c]) l := by
  constructor
  · simp only [round, h.next.1, Option.bind_eq_bind, Option.bind_some, h.escape,
      Bool.false_eq_true, if_false, h0, hc, or_self]
  · exact ⟨h.escape, by simp [h.offset], by simpa using h.format⟩

variable (args fuel) in
/-- The queued characters are printed at the end of the format and before an escape sequence. -/
theorem round_flush (h : Queued f s q (c :: l)) (hc : c = 0 ∨ c = '%'.toNat) :
    ∃ t, round f args fuel s = some (decide (c = 0), t) ∧ Emitted s t q 0 ∧
      (c ≠ 0 → InEscape f t l) := by
  have hq : (formatFrom f s.fmt).take (s.offset + 1 - 1) = q := by
    rw [h.format, Nat.add_sub_cancel, h.offset, List.take_left]
  have hlen : s.offset + 1 - 1 ≤ (formatFrom f s.fmt).length := by
    rw [h.format, List.length_append, h.offset]
    omega
  have hround : round f args fuel s = flush
      { s with offset := s.offset + 1, escape := true, lpref := 0 } c ' '.toNat 0
      (formatFrom f s.fmt) (s.offset + 1 - 1) := by
    simp only [round, h.next.1, Option.bind_eq_bind, Option.bind_some, h.escape,
      Bool.false_eq_true, if_false, hc, if_true]
  rw [hround, flush_eq hlen, hq, Nat.zero_sub, List.replicate_zero, List.nil_append]
  obtain ⟨u, hu⟩ : ∃ u : State, u = { s with offset := s.offset + 1, escape := true, lpref := 0 } :=
    ⟨_, rfl⟩
  rw [← hu]
  by_cases h0 : c = 0
  · refine ⟨u.emit q, by rw [if_pos h0, decide_eq_true h0], ?_, fun hne => absurd h0 hne⟩
    subst hu
    exact ⟨rfl, rfl, rfl, rfl, rfl⟩
  · obtain rfl := hc.resolve_left h0
    refine ⟨{ u.emit q with fmt := u.fmt + u.offset, offset := 0 },
      by rw [if_neg h0, decide_eq_false h0], ?_, fun _ => ?_⟩
    · subst hu
      exact ⟨rfl, rfl, rfl, rfl, rfl⟩
    · subst hu
      refine ⟨rfl, rfl, rfl, Nat.succ_ne_zero _, ?_⟩
      have := formatFrom_append h.format
      rwa [← h.offset] at this

/-! ## Conversions -/

/-- The state after a specification was read, with the character that follows it. -/
def State.afterSpec (s : State) (p : Spec) : State :=
  { s with escape := false, offset := p.chars.length + 1, lpref := p.lpref }

/-- The specification was read. What the character after it does is left. -/
theorem round_escape (h : InEscape f s (p.chars ++ c :: l)) (hp : p.Ok) (hc : p.Ends c)
    (hfuel : p.chars.length < fuel) :
    round f args fuel s = convert f args (s.afterSpec p) c p.pad p.width := by
  obtain ⟨x, rest, hx⟩ : ∃ x rest, p.chars ++ c :: l = x :: rest := by
    cases p.chars <;> simp
  obtain ⟨h1, h2⟩ := charAt_of_formatFrom (hx ▸ h.next)
  have hround : round f args fuel s = escapeRound f args fuel { s with offset := s.offset + 1 } x := by
    simp only [round, h1, Option.bind_eq_bind, Option.bind_some]
    exact if_pos h.escape
  have hoffset : s.offset + 1 + p.chars.length = p.chars.length + 1 := by
    rw [h.offset]
    omega
  rw [hround, escapeRound_eq (s := { s with offset := s.offset + 1 }) hp hc h.lpref hfuel hx h2]
  simp only [hoffset, State.afterSpec]

theorem ends_of_isNumber (hc : IsNumber c) : p.Ends c := by
  rcases hc with rfl | rfl | rfl | rfl | rfl <;>
    exact ⟨fun h => absurd h (by decide), fun h => absurd h (by decide),
      fun h => absurd h (by decide)⟩

theorem ends_of_eq (hc : c = 's'.toNat ∨ c = '%'.toNat ∨ c = 0) : p.Ends c := by
  rcases hc with rfl | rfl | rfl <;>
    exact ⟨fun h => absurd h (by decide), fun h => absurd h (by decide),
      fun h => absurd h (by decide)⟩

/-- The format goes on behind the conversion. -/
theorem afterSpec_format (h : InEscape f s (p.chars ++ c :: l)) :
    formatFrom f (s.fmt + (p.chars.length + 1)) = l := by
  have := formatFrom_append (a := p.chars ++ [c]) (l := l) (i := s.fmt + s.offset)
    (by simpa using h.next)
  rwa [h.offset, List.length_append] at this

/-- A conversion prints its text, padded to the width. -/
theorem flush_padded (h : InEscape f s (p.chars ++ c :: l)) (h0 : c ≠ 0) {m : List ℕ}
    (hm : m.takeWhile (· ≠ 0) = q) :
    ∃ t, flush { s.afterSpec p with arg := s.arg + 1 } c p.pad p.width m (strlen m) =
        some (false, t) ∧ Emitted s t (p.padded q) 1 ∧ Queued f t [] l := by
  have hlen : strlen m ≤ m.length := List.Sublist.length_le (List.takeWhile_sublist _)
  have hq : strlen m = q.length := congrArg List.length hm
  refine ⟨{ (s.afterSpec p).emit (p.padded q) with
    arg := s.arg + 1, fmt := s.fmt + (p.chars.length + 1), offset := 0 }, ?_,
    ⟨rfl, rfl, rfl, rfl, rfl⟩, ⟨rfl, rfl, afterSpec_format h⟩⟩
  rw [flush_eq hlen, if_neg h0, take_strlen, hm, hq]
  rfl

variable (args fuel) in
/-- A directive that starts with a `%` is read in the round after it. -/
theorem round_directive (hs : InEscape f s (d.chars.tail ++ l)) (hw : s.written < 2 ^ 64) (hd : d.Ok)
    (hpc : d.chars.head? = some '%'.toNat) (hinc : ¬ d.Incomplete) (hfuel : d.chars.length ≤ fuel) :
    ∃ t a b, round f args fuel s = some (false, t) ∧ Emitted s t a d.arity ∧ Queued f t b l ∧
      a ++ b = d.text args s.arg := by
  cases d with
  | char c => exact absurd (Option.some.inj hpc) hd.2
  | percent p =>
    have hs' : InEscape f s (p.chars ++ '%'.toNat :: l) := by
      simpa [Directive.chars] using hs
    have hlen : p.chars.length < fuel := by
      simp only [Directive.chars, List.length_cons, List.length_append] at hfuel
      omega
    refine ⟨s.afterSpec p, [], p.chars ++ ['%'.toNat], ?_, ?_, ?_, rfl⟩
    · rw [round_escape hs' hd (ends_of_eq (Or.inr (Or.inl rfl))) hlen, convert,
        if_neg (by decide), if_neg (by decide), if_pos rfl]
    · have hr := Emitted.refl hw
      exact ⟨hr.mem, hr.out, hr.n, hr.written, rfl⟩
    · refine ⟨rfl, by simp [State.afterSpec], ?_⟩
      have := hs'.next
      rw [hs'.offset] at this
      change formatFrom f s.fmt = _
      simpa using this
  | number p c =>
    have hs' : InEscape f s (p.chars ++ c :: l) := by
      simpa [Directive.chars] using hs
    have hlen : p.chars.length < fuel := by
      simp only [Directive.chars, List.length_cons, List.length_append] at hfuel
      omega
    have h0 : c ≠ 0 := by
      rcases hd.2 with rfl | rfl | rfl | rfl | rfl <;> decide
    obtain ⟨m, hm, htext⟩ := tmpbuf_eq (argValue (args.slot s.arg) p.lpref c) c
    obtain ⟨t, ht, he, hq⟩ := flush_padded hs' h0 htext
    refine ⟨t, _, [], ?_, he, hq, List.append_nil _⟩
    rw [round_escape hs' hd.1 (ends_of_isNumber hd.2) hlen, convert, if_pos hd.2]
    change (tmpbuf (argValue (args.slot s.arg) p.lpref c) c).bind _ = _
    rw [hm, Option.bind_some]
    exact ht
  | string p =>
    have hs' : InEscape f s (p.chars ++ 's'.toNat :: l) := by
      simpa [Directive.chars] using hs
    have hlen : p.chars.length < fuel := by
      simp only [Directive.chars, List.length_cons, List.length_append] at hfuel
      omega
    have htext : (Directive.stringText args (args.slot s.arg)).takeWhile (· ≠ 0) =
        Directive.stringText args (args.slot s.arg) := by
      rw [Directive.stringText]
      split
      · rfl
      · exact takeWhile_of_ne_zero fun c hc h0 => (args.str _).noNul (h0 ▸ hc)
    obtain ⟨t, ht, he, hq⟩ := flush_padded hs' (by decide) htext
    refine ⟨t, _, [], ?_, he, hq, List.append_nil _⟩
    rw [round_escape hs' hd (ends_of_eq (Or.inl rfl)) hlen, convert, if_neg (by decide), if_pos rfl]
    exact ht
  | unknown p c =>
    have hs' : InEscape f s (p.chars ++ c :: l) := by
      simpa [Directive.chars] using hs
    have hlen : p.chars.length < fuel := by
      simp only [Directive.chars, List.length_cons, List.length_append] at hfuel
      omega
    obtain ⟨hp, hends, h0, hnum, hstr, hpct⟩ := hd
    have hle : p.chars.length + 1 + 1 ≤ (formatFrom f (s.fmt - 1)).length := by
      rw [hs'.format]
      simp
    have htake : (formatFrom f (s.fmt - 1)).take (p.chars.length + 1 + 1) =
        '%'.toNat :: (p.chars ++ [c]) := by
      rw [hs'.format, List.take_succ_cons, List.append_cons,
        List.take_left' (by simp : (p.chars ++ [c]).length = p.chars.length + 1)]
    refine ⟨{ (s.afterSpec p).emit ('%'.toNat :: (p.chars ++ [c])) with
      fmt := s.fmt + (p.chars.length + 1), offset := 0 }, _, [], ?_, ⟨rfl, rfl, rfl, rfl, rfl⟩,
      ⟨rfl, rfl, afterSpec_format hs'⟩, List.append_nil _⟩
    rw [round_escape hs' hp hends hlen, convert, if_neg hnum, if_neg hstr, if_neg hpct,
      if_neg (show (s.afterSpec p).fmt ≠ 0 from hs'.pos), if_neg h0]
    have hflush : flush (s.afterSpec p) c p.pad 0 (formatFrom f (s.fmt - 1))
        (p.chars.length + 1 + 1) = _ := flush_eq hle
    rw [htake, if_neg h0, Nat.zero_sub, List.replicate_zero, List.nil_append] at hflush
    exact hflush
  | incomplete p => exact absurd trivial hinc

variable (args fuel) in
/-- What starts like a conversion and ends with the format is printed as it stands. -/
theorem round_incomplete (hs : InEscape f s (p.chars ++ [0])) (hp : p.Ok)
    (hfuel : p.chars.length < fuel) : ∃ t, round f args fuel s = some (true, t) ∧
      Emitted s t ('%'.toNat :: p.chars) 0 := by
  have hle : p.chars.length + 1 ≤ (formatFrom f (s.fmt - 1)).length := by
    rw [hs.format]
    simp
  have htake : (formatFrom f (s.fmt - 1)).take (p.chars.length + 1) = '%'.toNat :: p.chars := by
    rw [hs.format, List.take_succ_cons, List.take_left]
  refine ⟨(s.afterSpec p).emit ('%'.toNat :: p.chars), ?_, ⟨rfl, rfl, rfl, rfl, rfl⟩⟩
  rw [round_escape hs hp (ends_of_eq (Or.inr (Or.inr rfl))) hfuel, convert, if_neg (by decide),
    if_neg (by decide), if_neg (by decide),
    if_neg (show (s.afterSpec p).fmt ≠ 0 from hs.pos), if_pos rfl]
  have hflush : flush (s.afterSpec p) 0 p.pad 0 (formatFrom f (s.fmt - 1)) (p.chars.length + 1) = _ :=
    flush_eq hle
  rw [htake, if_pos rfl, Nat.zero_sub, List.replicate_zero, List.nil_append] at hflush
  exact hflush

/-! ## The loop -/

theorem loop_round {r : Bool × State} (h : round f args fuel s = some r) :
    loop f args (fuel + 1) s = if r.1 then some r.2 else loop f args fuel r.2 := by
  rw [loop, h, Option.bind_some]

/-- The loop prints what was queued and the rest of the format. -/
theorem loop_eq (hds : Format.Ok ds) (h : Queued f s q (Format.chars ds ++ [0]))
    (hw : s.written < 2 ^ 64) (hfuel : (Format.chars ds).length + 2 ≤ fuel) :
    ∃ t, loop f args fuel s = some t ∧
      Emitted s t (q ++ Format.text args s.arg ds) (Format.arity ds) := by
  induction ds generalizing s q fuel with
  | nil =>
    obtain ⟨fuel, rfl⟩ : ∃ n, fuel = n + 1 := ⟨fuel - 1, by omega⟩
    obtain ⟨t, ht, he, -⟩ := round_flush args fuel h (Or.inl rfl)
    refine ⟨t, by rw [loop_round ht]; rfl, ?_⟩
    rw [Format.text, List.append_nil]
    exact he
  | cons d ds ih =>
    have hchars : Format.chars (d :: ds) = d.chars ++ Format.chars ds := rfl
    rw [hchars, List.append_assoc] at h
    rw [hchars, List.length_append] at hfuel
    obtain ⟨fuel, rfl⟩ : ∃ n, fuel = n + 1 := ⟨fuel - 1, by omega⟩
    by_cases hlit : ∃ c, d = .char c
    · obtain ⟨c, rfl⟩ := hlit
      obtain ⟨hc0, hc⟩ : c ≠ 0 ∧ c ≠ '%'.toNat := hds.1
      obtain ⟨hround, hq⟩ := round_char args fuel h hc0 hc
      obtain ⟨t, ht, he⟩ := ih hds.2.2 hq hw
        (show (Format.chars ds).length + 2 ≤ fuel by simp [Directive.chars] at hfuel; omega)
      refine ⟨t, by rw [loop_round hround]; exact ht, ?_⟩
      rw [List.append_assoc] at he
      have harity : Format.arity (.char c :: ds) = Format.arity ds := by
        simp [Format.arity, Directive.arity]
      rw [harity]
      exact ⟨he.mem, he.out, he.n, he.written, he.arg⟩
    · have hpc : ∃ r, d.chars = '%'.toNat :: r ∧ (¬ d.Incomplete → 1 ≤ r.length) := by
        cases d with
        | char c => exact absurd ⟨c, rfl⟩ hlit
        | incomplete p => exact ⟨_, rfl, fun hinc => absurd trivial hinc⟩
        | _ => exact ⟨_, rfl, fun _ => by simp⟩
      obtain ⟨r, hr, hlen⟩ := hpc
      rw [hr] at h hfuel
      obtain ⟨s1, hround, he1, hesc⟩ := round_flush args fuel h (Or.inr rfl)
      have hin := hesc (by decide)
      obtain ⟨fuel, rfl⟩ : ∃ n, fuel = n + 1 := ⟨fuel - 1, by simp at hfuel; omega⟩
      have hloop1 : loop f args (fuel + 1 + 1) s = loop f args (fuel + 1) s1 := by
        rw [loop_round hround]
        rfl
      by_cases hinc : d.Incomplete
      · obtain rfl := hds.2.1 hinc
        cases d with
        | incomplete p =>
          obtain rfl : p.chars = r := List.tail_eq_of_cons_eq hr
          obtain ⟨t, ht, he⟩ := round_incomplete args fuel hin hds.1
            (by simp at hfuel; omega)
          refine ⟨t, by rw [hloop1, loop_round ht]; rfl, ?_⟩
          have := he1.trans he
          simpa [Format.text, Format.arity, Directive.text, Directive.arity, Directive.chars]
            using this
        | _ => exact absurd hinc (by simp [Directive.Incomplete])
      · obtain ⟨t, a, b, ht, he, hq, htext⟩ := round_directive args fuel (d := d)
          (by rw [hr]; exact hin) he1.written_lt hds.1 (by rw [hr]; rfl) hinc
          (by rw [hr]; simp at hfuel ⊢; omega)
        obtain ⟨u, hu, he2⟩ := ih hds.2.2 hq he.written_lt
          (show (Format.chars ds).length + 2 ≤ fuel by
            have := hlen hinc
            simp at hfuel
            omega)
        refine ⟨u, by rw [hloop1, loop_round ht]; exact hu, ?_⟩
        have harg : t.arg = s.arg + d.arity := by rw [he.arg, he1.arg, Nat.add_zero]
        have := he1.trans (he.trans he2)
        rw [harg, ← List.append_assoc a, htext, he1.arg, Nat.add_zero, Nat.zero_add] at this
        simpa [Format.text, Format.arity] using this

/-! ## The whole call -/

/-- The buffer holds a text, cut to its size, and a NUL. Nothing else was written. -/
structure Holds (mem mem' : ℕ → ℕ) (size : ℕ) (text : List ℕ) : Prop where
  outside : ∀ i, size ≤ i → mem' i = mem i
  bytes : size ≠ 0 → text.length < 2 ^ 64 → ∀ i, i < size - 1 → ∀ c ∈ text[i]?, mem' i = c
  nul : size ≠ 0 → text.length < 2 ^ 64 → mem' (min (size - 1) text.length) = 0

theorem holds_of_emitted {mem mem' : ℕ → ℕ} {size written : ℕ} {text : List ℕ}
    (hm : mem' = store mem 0 (text.take size)) (hw : written = text.length % 2 ^ 64) :
    Holds mem (if size ≠ 0 then store mem' (if written < size then written else size - 1) [0]
      else mem') size text := by
  subst hm
  have hout : ∀ i, size ≤ i → store mem 0 (text.take size) i = mem i := by
    intro i hi
    rw [store, if_pos (Nat.zero_le i), Nat.sub_zero,
      List.getElem?_eq_none (by rw [List.length_take]; omega), Option.getD_none]
  have hnul : ∀ (m : ℕ → ℕ) (j i : ℕ), store m j [0] i = if i = j then 0 else m i := by
    intro m j i
    rw [store]
    by_cases hij : i = j
    · simp [hij]
    · rw [if_neg hij]
      split
      · rw [List.getElem?_eq_none (by rw [List.length_singleton]; omega), Option.getD_none]
      · rfl
  by_cases h0 : size = 0
  · refine ⟨fun i hi => ?_, fun h => absurd h0 h, fun h => absurd h0 h⟩
    rw [if_neg (not_not.mpr h0)]
    exact hout i hi
  · rw [if_pos h0]
    refine ⟨fun i hi => ?_, fun _ hlen i hi c hc => ?_, fun _ hlen => ?_⟩
    · rw [hnul, if_neg (by split <;> omega), hout i hi]
    · have hi' : i < text.length := (List.getElem?_eq_some_iff.mp hc).1
      rw [hnul, if_neg (by rw [hw, Nat.mod_eq_of_lt hlen]; split <;> omega), store,
        if_pos (Nat.zero_le i), Nat.sub_zero, List.getElem?_take_of_lt (by omega), hc,
        Option.getD_some]
    · rw [hnul, if_pos]
      rw [hw, Nat.mod_eq_of_lt hlen]
      split <;> omega

/-- A call prints a text and takes some arguments, whatever the buffer is. -/
def Prints (f : CString) (args : VaList) (text : List ℕ) (k : ℕ) : Prop :=
  ∀ n mem size, ∃ t, kvsnprintf (f.bytes.length + 2 + n) f args mem size = some t ∧ t.arg = k ∧
    Holds mem t.mem size text

/-- The formatter prints the texts of the directives one after the other. -/
theorem prints_text (hds : Format.Ok ds) (hf : Format.chars ds = f.bytes) :
    Prints f args (Format.text args 0 ds) (Format.arity ds) := by
  intro n mem size
  have hq : Queued f ⟨0, 0, 0, false, 0, mem, 0, size, 0⟩ [] (Format.chars ds ++ [0]) :=
    ⟨rfl, rfl, by rw [hf]; rfl⟩
  have hfuel : (Format.chars ds).length + 2 ≤ f.bytes.length + 2 + n := by
    rw [hf]
    omega
  obtain ⟨t, ht, he⟩ : ∃ t, loop f args _ _ = some t ∧ Emitted _ t (Format.text args 0 ds) _ :=
    loop_eq hds hq (Nat.two_pow_pos 64) hfuel
  refine ⟨_, by rw [kvsnprintf, ht, Option.map_some], ?_, ?_⟩
  · split <;> rw [← Nat.zero_add (Format.arity ds)] <;> exact he.arg
  · have hm : t.mem = store mem 0 ((Format.text args 0 ds).take size) := by
      rw [he.mem]
      rfl
    have hw : t.written = (Format.text args 0 ds).length % 2 ^ 64 := by
      rw [he.written]
      simp [State.emit]
    have := holds_of_emitted hm hw
    split at this <;> simpa [*] using this

end Snprintf

end Tomato
