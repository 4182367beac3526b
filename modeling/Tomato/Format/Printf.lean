import Tomato.Format.Run

/-!
# The conversions of C

What `snprintf` of C prints for the conversions that callers use, and when `kvsnprintf` prints
the same: the zeros of a padded number stand behind its sign in C and before it here.
-/

namespace Tomato

open Snprintf

namespace Spec

variable (p : Spec)

/-- The width as a number. -/
def number : ℕ := p.digits.foldl (fun w c => w * 10 + (c - '0'.toNat)) 0

theorem width_eq (h : p.number < 2 ^ 64) : p.width = p.number := by
  have hmod : ∀ (ds : List ℕ) (w w' : ℕ), w = w' % 2 ^ 64 →
      ds.foldl (fun w c => (w * 10 % 2 ^ 64 + (c - '0'.toNat)) % 2 ^ 64) w =
        ds.foldl (fun w c => w * 10 + (c - '0'.toNat)) w' % 2 ^ 64 := by
    intro ds
    induction ds with
    | nil => exact fun w w' h => h
    | cons d ds ih =>
        intro w w' h
        refine ih _ _ ?_
        change (w * 10 % 2 ^ 64 + (d - '0'.toNat)) % 2 ^ 64 = (w' * 10 + (d - '0'.toNat)) % 2 ^ 64
        rw [h]
        omega
  rw [width, hmod p.digits 0 0 rfl]
  exact Nat.mod_eq_of_lt h

end Spec

namespace Printf

/-- The value of a signed argument. Without a modifier it is an `int`, else it has 64 bits. -/
def signedArg (p : Spec) (slot : BitVec 64) : ℤ :=
  if p.long = 0 ∧ p.size = false then (slot.setWidth 32).toInt else slot.toInt

/-- The value of an unsigned argument. -/
def unsignedArg (p : Spec) (slot : BitVec 64) : ℕ :=
  if p.long = 0 ∧ p.size = false then (slot.setWidth 32).toNat else slot.toNat

/-- The sign of a converted number. -/
def sign (p : Spec) (c : ℕ) (slot : BitVec 64) : List ℕ :=
  if c = 'd'.toNat ∧ signedArg p slot < 0 then ['-'.toNat] else []

/-- The digits of a converted number. -/
def digits (p : Spec) (c : ℕ) (slot : BitVec 64) : List ℕ :=
  if c = 'd'.toNat then numeral 10 (signedArg p slot).natAbs
  else if c = 'u'.toNat then numeral 10 (unsignedArg p slot)
  else numeral 16 (unsignedArg p slot)

/-- Spaces stand before the sign, zeros behind it. -/
def field (p : Spec) (sign digits : List ℕ) : List ℕ :=
  let n := p.number - (sign.length + digits.length)
  if p.zero then sign ++ (List.replicate n '0'.toNat ++ digits)
  else List.replicate n ' '.toNat ++ (sign ++ digits)

/-- What C prints for a directive, if its argument is in the given slot. -/
def text (args : VaList) (i : ℕ) : Directive → List ℕ
  | .char c => [c]
  | .percent _ => ['%'.toNat]
  | .number p c => field p (sign p c (args.slot i)) (digits p c (args.slot i))
  | .string p => field p [] (args.str (args.slot i)).bytes
  | .unknown _ _ => []
  | .incomplete _ => []

/-- What C prints. -/
def print (args : VaList) : ℕ → List Directive → List ℕ
  | _, [] => []
  | i, d :: ds => text args i d ++ print args (i + d.arity) ds

/-- Literal characters, `%%`, the conversions `d`, `u` and `x` with a flag for zeros, a width and
one of the modifiers `l`, `ll` and `z`, and the conversion `s` with a width. -/
def Supported : Directive → Prop
  | .char c => c ≠ 0 ∧ c ≠ '%'.toNat
  | .percent p => p = ⟨false, [], 0, false⟩
  | .number p c => p.Ok ∧ p.number < 2 ^ 31 ∧ p.long ≤ 2 ∧
      (c = 'd'.toNat ∨ c = 'u'.toNat ∨ c = 'x'.toNat)
  | .string p => p.Ok ∧ p.number < 2 ^ 31 ∧ p.zero = false ∧ p.long = 0 ∧ p.size = false
  | .unknown _ _ => False
  | .incomplete _ => False

/-- The slots of strings hold pointers to strings. -/
def Matching (args : VaList) : ℕ → List Directive → Prop
  | _, [] => True
  | i, d :: ds => ((∃ p, d = .string p) → args.slot i ≠ 0) ∧ Matching args (i + d.arity) ds

/-- No zeros stand between a sign and its number. -/
def SignFits (args : VaList) (i : ℕ) : Directive → Prop
  | .number p c => p.zero = true → c = 'd'.toNat → signedArg p (args.slot i) < 0 →
      p.number ≤ (numeral 10 (signedArg p (args.slot i)).natAbs).length + 1
  | _ => True

def AllSignsFit (args : VaList) : ℕ → List Directive → Prop
  | _, [] => True
  | i, d :: ds => SignFits args i d ∧ AllSignsFit args (i + d.arity) ds

/-- The call fills every large enough buffer with the text and a NUL. -/
def Produces (f : CString) (args : VaList) (text : List ℕ) : Prop :=
  ∀ mem size, text.length < size → size < 2 ^ 64 → ∃ n, ∀ k, ∃ t,
    kvsnprintf (n + k) f args mem size = some t ∧ (∀ i, ∀ c ∈ text[i]?, t.mem i = c) ∧
      t.mem text.length = 0

variable {args : VaList} {i : ℕ} {d : Directive} {ds : List Directive} {p : Spec} {c : ℕ}

theorem Supported.ok (h : Supported d) : d.Ok ∧ ¬ d.Incomplete := by
  cases d with
  | char c => exact ⟨h, id⟩
  | percent p =>
    obtain rfl : p = ⟨false, [], 0, false⟩ := h
    exact ⟨⟨by decide, by decide, by decide⟩, id⟩
  | number p c =>
    refine ⟨⟨h.1, ?_⟩, id⟩
    rcases h.2.2.2 with rfl | rfl | rfl <;> decide
  | string p => exact ⟨h.1, id⟩
  | unknown p c => exact h.elim
  | incomplete p => exact h.elim

theorem lpref_eq_zero : p.lpref = 0 ↔ p.long = 0 ∧ p.size = false := by
  rw [Spec.lpref]
  cases hs : p.size with
  | true => simp
  | false => simp

theorem argValue_signed (slot : BitVec 64) :
    (argValue slot p.lpref 'd'.toNat).toInt = signedArg p slot := by
  by_cases h : p.lpref = 0
  · rw [argValue, signedArg, if_pos (lpref_eq_zero.mp h), if_pos ⟨rfl, h⟩]
    simp only [h, ne_eq, not_true_eq_false, if_false, show ¬ 'd'.toNat = 'p'.toNat by decide]
    rw [BitVec.toInt_signExtend_of_le (by omega), BitVec.setWidth_setWidth_of_le _ (by omega),
      BitVec.setWidth_eq]
  · rw [argValue, signedArg, if_neg fun h' => h (lpref_eq_zero.mpr h'), if_neg fun h' => h h'.2]
    simp only [h, ne_eq, not_false_eq_true, if_true, ite_self]

theorem argValue_unsigned (slot : BitVec 64) (hc : c ≠ 'd'.toNat ∧ c ≠ 'p'.toNat) :
    (argValue slot p.lpref c).toNat = unsignedArg p slot := by
  by_cases h : p.lpref = 0
  · rw [argValue, unsignedArg, if_pos (lpref_eq_zero.mp h), if_neg fun h' => hc.1 h'.1]
    simp only [h, ne_eq, not_true_eq_false, if_false, hc.2]
    exact BitVec.toNat_setWidth_of_le (by omega)
  · rw [argValue, unsignedArg, if_neg fun h' => h (lpref_eq_zero.mpr h'),
      if_neg fun h' => h h'.2]
    simp only [h, ne_eq, not_false_eq_true, if_true, ite_self]

/-- The digits and the sign make up the text of a number. -/
theorem numberText_eq (slot : BitVec 64)
    (hc : c = 'd'.toNat ∨ c = 'u'.toNat ∨ c = 'x'.toNat) :
    numberText (argValue slot p.lpref c) c = sign p c slot ++ digits p c slot := by
  rcases hc with rfl | rfl | rfl
  · rw [numberText, if_neg (by decide), if_pos rfl, argValue_signed slot, sign, digits,
      if_pos rfl]
    by_cases hneg : signedArg p slot < 0
    · rw [if_pos hneg, if_pos ⟨rfl, hneg⟩]
      rfl
    · rw [if_neg hneg, if_neg fun h => hneg h.2]
      rfl
  · rw [numberText, if_neg (by decide), if_neg (by decide), if_pos rfl,
      argValue_unsigned slot (by decide), sign, digits, if_neg fun h => absurd h.1 (by decide),
      if_neg (by decide), if_pos rfl]
    rfl
  · rw [numberText, if_neg (by decide), if_neg (by decide), if_neg (by decide), if_neg (by decide),
      argValue_unsigned slot (by decide), sign, digits, if_neg fun h => absurd h.1 (by decide),
      if_neg (by decide), if_neg (by decide)]
    rfl

theorem length_field (s ds : List ℕ) (hw : p.number < 2 ^ 31) :
    (field p s ds).length = (p.padded (s ++ ds)).length := by
  rw [field, Spec.padded, p.width_eq (by omega)]
  cases p.zero <;> simp [Nat.add_left_comm]

/-- The text is that of C, unless zeros stand before a sign. -/
theorem padded_eq_field_iff (s ds : List ℕ) (hw : p.number < 2 ^ 31) (hs : s = [] ∨ s = ['-'.toNat]) :
    p.padded (s ++ ds) = field p s ds ↔
      (p.zero = true → s ≠ [] → p.number ≤ ds.length + 1) := by
  rw [field, Spec.padded, p.width_eq (by omega), List.length_append, Spec.pad]
  cases p.zero with
  | false => simp
  | true =>
    rcases hs with rfl | rfl
    · simp
    · simp only [if_true, true_implies, List.length_singleton]
      by_cases hle : p.number ≤ ds.length + 1
      · have h0 : p.number - (1 + ds.length) = 0 := by omega
        simp [h0, hle]
      · obtain ⟨n, hn⟩ : ∃ n, p.number - (1 + ds.length) = n + 1 :=
          ⟨p.number - (1 + ds.length) - 1, by omega⟩
        rw [hn, List.replicate_succ]
        simp [hle]

/-- A directive prints as much as in C, and the same if its sign fits. -/
theorem text_eq_iff (hd : Supported d) (hm : (∃ p, d = .string p) → args.slot i ≠ 0) :
    (d.text args i).length = (text args i d).length ∧
      (d.text args i = text args i d ↔ SignFits args i d) := by
  cases d with
  | char c => exact ⟨rfl, by simp [Directive.text, text, SignFits]⟩
  | percent p =>
    obtain rfl : p = ⟨false, [], 0, false⟩ := hd
    exact ⟨rfl, by simp [Directive.text, text, SignFits, Spec.chars]⟩
  | number p c =>
    obtain ⟨-, hw, -, hc⟩ := hd
    have hs : sign p c (args.slot i) = [] ∨ sign p c (args.slot i) = ['-'.toNat] := by
      rw [sign]
      split <;> simp
    rw [Directive.text, text, numberText_eq _ hc]
    refine ⟨(length_field _ _ hw).symm, (padded_eq_field_iff _ _ hw hs).trans ?_⟩
    rw [SignFits, sign]
    constructor
    · intro h hz hcd hneg
      have := h hz (by simp [hcd, hneg])
      rwa [digits, if_pos hcd] at this
    · intro h hz hne
      obtain ⟨hcd, hneg⟩ : c = 'd'.toNat ∧ signedArg p (args.slot i) < 0 := by
        by_contra hn
        rw [if_neg hn] at hne
        exact hne rfl
      rw [digits, if_pos hcd]
      exact h hz hcd hneg
  | string p =>
    obtain ⟨-, hw, hz, -, -⟩ := hd
    have htext : Directive.stringText args (args.slot i) = (args.str (args.slot i)).bytes := by
      rw [Directive.stringText, if_neg (hm ⟨p, rfl⟩)]
    rw [Directive.text, text, htext]
    have hlen := length_field (p := p) [] (args.str (args.slot i)).bytes hw
    have hiff := padded_eq_field_iff (p := p) [] (args.str (args.slot i)).bytes hw (Or.inl rfl)
    rw [List.nil_append] at hlen hiff
    exact ⟨hlen.symm, by simp [hiff, hz, SignFits]⟩
  | unknown p c => exact hd.elim
  | incomplete p => exact hd.elim

theorem print_eq_iff (hds : ∀ d ∈ ds, Supported d) (hm : Matching args i ds) :
    (Format.text args i ds).length = (print args i ds).length ∧
      (Format.text args i ds = print args i ds ↔ AllSignsFit args i ds) := by
  induction ds generalizing i with
  | nil => exact ⟨rfl, by simp [Format.text, print, AllSignsFit]⟩
  | cons d ds ih =>
      obtain ⟨hlen, hiff⟩ := text_eq_iff (hds d (by simp)) hm.1
      obtain ⟨hlens, hiffs⟩ := ih (fun e he => hds e (by simp [he])) hm.2
      rw [Format.text, print, AllSignsFit, ← hiff, ← hiffs]
      exact ⟨by simp [hlen, hlens], ⟨fun h => List.append_inj h hlen, fun h => by rw [h.1, h.2]⟩⟩

theorem ok_of_supported (hds : ∀ d ∈ ds, Supported d) : Format.Ok ds := by
  induction ds with
  | nil => trivial
  | cons d ds ih =>
      obtain ⟨hok, hinc⟩ := (hds d (by simp)).ok
      exact ⟨hok, fun h => absurd h hinc, ih fun e he => hds e (by simp [he])⟩

/-- The text in a large enough buffer is the one that the call prints. -/
theorem produces_iff {f : CString} {t : List ℕ} {k : ℕ} (h : Prints f args t k) {u : List ℕ}
    (hlen : t.length = u.length) (hsize : u.length + 1 < 2 ^ 64) : Produces f args u ↔ t = u := by
  constructor
  · intro hp
    obtain ⟨n, hn⟩ := hp (fun _ => 0) (u.length + 1) (by omega) hsize
    obtain ⟨s, hs, hchars, -⟩ := hn (f.bytes.length + 2)
    obtain ⟨s', hs', -, hold⟩ := h n (fun _ => 0) (u.length + 1)
    obtain rfl : s = s' := by
      rw [Nat.add_comm] at hs
      exact Option.some.inj (hs.symm.trans hs')
    refine List.ext_getElem hlen fun i h1 h2 => ?_
    rw [← hold.bytes (by omega) (by omega) i (by omega) _ (List.getElem?_eq_getElem h1)]
    exact hchars i _ (List.getElem?_eq_getElem h2)
  · rintro rfl mem size hlt hsize'
    refine ⟨f.bytes.length + 2, fun n => ?_⟩
    obtain ⟨s, hs, -, hold⟩ := h n mem size
    refine ⟨s, hs, fun i c hc => ?_, ?_⟩
    · have hi := (List.getElem?_eq_some_iff.mp hc).1
      exact hold.bytes (by omega) (by omega) i (by omega) c hc
    · have := hold.nul (by omega) (by omega)
      rwa [Nat.min_eq_right (by omega)] at this

/-- `kvsnprintf` prints what C prints if and only if no zeros stand between a sign and its
number. -/
theorem produces_print_iff {f : CString} (hds : ∀ d ∈ ds, Supported d)
    (hf : f.bytes = Format.chars ds) (hm : Matching args 0 ds)
    (hsize : (print args 0 ds).length + 1 < 2 ^ 64) :
    Produces f args (print args 0 ds) ↔ AllSignsFit args 0 ds := by
  obtain ⟨hlen, hiff⟩ := print_eq_iff hds hm
  exact (produces_iff (prints_text (ok_of_supported hds) hf.symm) hlen hsize).trans hiff

/-- The directive `%05d`. -/
def paddedNumber : Directive := .number ⟨true, ['5'.toNat], 0, false⟩ 'd'.toNat

theorem paddedNumber_supported : ∀ d ∈ [paddedNumber], Supported d := by
  intro d hd
  obtain rfl := List.mem_singleton.mp hd
  exact ⟨⟨by decide, by decide, by decide⟩, by decide, by decide, Or.inl rfl⟩

/-- `%05d` prints 42 as C does. -/
theorem produces_padded_number :
    Produces (CString.ofString "%05d" (by decide)) ⟨fun _ => 42, fun _ => ⟨[], by simp⟩⟩
      ("00042".toList.map Char.toNat) := by
  have hprint : print ⟨fun _ => 42, fun _ => ⟨[], by simp⟩⟩ 0 [paddedNumber] =
      "00042".toList.map Char.toNat := by decide
  rw [← hprint]
  refine (produces_print_iff paddedNumber_supported (by decide) ⟨?_, trivial⟩ ?_).mpr
    ⟨?_, trivial⟩
  · rintro ⟨p, hp⟩
    simp [paddedNumber] at hp
  · rw [hprint]
    decide
  · exact fun _ _ hneg => absurd hneg (by decide)

/-- `%05d` prints -42 with the sign behind the zeros. -/
theorem not_produces_padded_negative :
    (∀ d ∈ [paddedNumber], Supported d) ∧
    print ⟨fun _ => -42, fun _ => ⟨[], by simp⟩⟩ 0 [paddedNumber] =
      "-0042".toList.map Char.toNat ∧
    ¬ Produces (CString.ofString "%05d" (by decide)) ⟨fun _ => -42, fun _ => ⟨[], by simp⟩⟩
      ("-0042".toList.map Char.toNat) := by
  refine ⟨paddedNumber_supported, by decide, fun h => ?_⟩
  have hprints : Prints (CString.ofString "%05d" (by decide))
      ⟨fun _ => -42, fun _ => ⟨[], by simp⟩⟩ _ _ :=
    prints_text (ok_of_supported paddedNumber_supported) (by decide)
  have htext := (produces_iff hprints (by decide) (by decide)).mp h
  exact absurd htext (by decide)

end Printf

end Tomato
