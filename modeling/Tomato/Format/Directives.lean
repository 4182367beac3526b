import Tomato.Format.Numbers

/-!
# The directives of a format

Every format is a list of directives: literal characters, `%%`, conversions, and what starts
like a conversion and is none. `text` is what a directive is meant to print.
-/

namespace Tomato

open Snprintf

def IsDigit (c : ℕ) : Prop := '0'.toNat ≤ c ∧ c ≤ '9'.toNat

instance (c : ℕ) : Decidable (IsDigit c) := by unfold IsDigit; infer_instance

/-- What stands between a `%` and the character of the conversion. -/
structure Spec where
  zero : Bool
  digits : List ℕ
  long : ℕ
  size : Bool
deriving DecidableEq, Repr

namespace Spec

variable (p : Spec)

def chars : List ℕ :=
  (if p.zero then ['0'.toNat] else []) ++ (p.digits ++ (List.replicate p.long 'l'.toNat ++
    if p.size then ['z'.toNat] else []))

def pad : ℕ := if p.zero then '0'.toNat else ' '.toNat

/-- The width, as far as 64 bits hold it. -/
def width : ℕ :=
  p.digits.foldl (fun w c => (w * 10 % 2 ^ 64 + (c - '0'.toNat)) % 2 ^ 64) 0

def lpref : ℕ := if p.size then 1 else p.long

/-- A text, padded to the width. -/
def padded (text : List ℕ) : List ℕ := List.replicate (p.width - text.length) p.pad ++ text

structure Ok (p : Spec) : Prop where
  digits : ∀ c ∈ p.digits, IsDigit c
  first : p.zero = false → p.digits.head? ≠ some '0'.toNat
  size : p.size = true → p.long = 0

/-- The character does not belong to the specification before it. -/
structure Ends (p : Spec) (c : ℕ) : Prop where
  digit : IsDigit c → p.size = true ∨ p.long ≠ 0
  long : c = 'l'.toNat → p.size = true
  size : c = 'z'.toNat → p.size = true ∨ p.long ≠ 0

variable {p} {c y : ℕ} {l rest : List ℕ}

/-! What follows a part of a specification does not belong to this part. -/

theorem Ends.size_first (hc : p.Ends c)
    (h : (if p.size then ['z'.toNat] else []) ++ c :: l = y :: rest) : y ≠ 'l'.toNat := by
  cases hs : p.size with
  | true =>
    rw [hs, if_pos rfl] at h
    obtain ⟨rfl, -⟩ := List.cons.inj h
    decide
  | false =>
    rw [hs, if_neg (by simp)] at h
    obtain ⟨rfl, -⟩ := List.cons.inj h
    exact fun hl => absurd (hc.long hl) (by simp [hs])

theorem Ends.long_first (hc : p.Ends c)
    (h : List.replicate p.long 'l'.toNat ++ ((if p.size then ['z'.toNat] else []) ++ c :: l) =
      y :: rest) : ¬ IsDigit y := by
  cases hk : p.long with
  | succ k =>
    rw [hk, List.replicate_succ] at h
    obtain ⟨rfl, -⟩ := List.cons.inj h
    decide
  | zero =>
    cases hs : p.size with
    | true =>
      rw [hk, hs, if_pos rfl] at h
      obtain ⟨rfl, -⟩ := List.cons.inj h
      decide
    | false =>
      rw [hk, hs, if_neg (by simp)] at h
      obtain ⟨rfl, -⟩ := List.cons.inj h
      exact fun hd => by simpa [hk, hs] using hc.digit hd

theorem Ends.digits_first (hc : p.Ends c) (hp : p.Ok)
    (h : p.digits ++ (List.replicate p.long 'l'.toNat ++
      ((if p.size then ['z'.toNat] else []) ++ c :: l)) = y :: rest) (hz : p.zero = false) :
    y ≠ '0'.toNat := by
  cases hd : p.digits with
  | cons d ds =>
    rw [hd] at h
    obtain ⟨rfl, -⟩ := List.cons.inj h
    exact fun heq => hp.first hz (by simp [hd, heq])
  | nil =>
    rw [hd] at h
    rintro rfl
    exact hc.long_first h (by decide)

end Spec

inductive Directive
  | char (c : ℕ)
  | percent (p : Spec)
  | number (p : Spec) (c : ℕ)
  | string (p : Spec)
  | unknown (p : Spec) (c : ℕ)
  | incomplete (p : Spec)
deriving DecidableEq, Repr

namespace Directive

def chars : Directive → List ℕ
  | char c => [c]
  | percent p => '%'.toNat :: (p.chars ++ ['%'.toNat])
  | number p c => '%'.toNat :: (p.chars ++ [c])
  | string p => '%'.toNat :: (p.chars ++ ['s'.toNat])
  | unknown p c => '%'.toNat :: (p.chars ++ [c])
  | incomplete p => '%'.toNat :: p.chars

def Ok : Directive → Prop
  | char c => c ≠ 0 ∧ c ≠ '%'.toNat
  | percent p => p.Ok
  | number p c => p.Ok ∧ IsNumber c
  | string p => p.Ok
  | unknown p c => p.Ok ∧ p.Ends c ∧ c ≠ 0 ∧ ¬ IsNumber c ∧ c ≠ 's'.toNat ∧ c ≠ '%'.toNat
  | incomplete p => p.Ok

def Incomplete : Directive → Prop
  | incomplete _ => True
  | _ => False

def stringText (args : VaList) (ptr : BitVec 64) : List ℕ :=
  if ptr = 0 then nullText else (args.str ptr).bytes

/-- What the directive prints, if its argument is in the given slot. -/
def text (args : VaList) (i : ℕ) : Directive → List ℕ
  | char c => [c]
  | percent p => p.chars ++ ['%'.toNat]
  | number p c => p.padded (numberText (argValue (args.slot i) p.lpref c) c)
  | string p => p.padded (stringText args (args.slot i))
  | unknown p c => (unknown p c).chars
  | incomplete p => (incomplete p).chars

/-- How many arguments it takes. -/
def arity : Directive → ℕ
  | number _ _ | string _ => 1
  | _ => 0

end Directive

/-! ## Lists of directives -/

namespace Format

variable {ds es : List Directive} {l : List ℕ}

def chars (ds : List Directive) : List ℕ := ds.flatMap Directive.chars

def Ok : List Directive → Prop
  | [] => True
  | d :: ds => d.Ok ∧ (d.Incomplete → ds = []) ∧ Ok ds

def text (args : VaList) : ℕ → List Directive → List ℕ
  | _, [] => []
  | i, d :: ds => d.text args i ++ text args (i + d.arity) ds

def arity (ds : List Directive) : ℕ := (ds.map Directive.arity).sum

theorem Ok.append (hd : Ok ds) (hc : ∀ d ∈ ds, ¬ d.Incomplete) (he : Ok es) : Ok (ds ++ es) := by
  induction ds with
  | nil => exact he
  | cons d ds ih =>
      exact ⟨hd.1, fun h => absurd h (hc d (by simp)), ih hd.2.2 fun x hx => hc x (by simp [hx])⟩

end Format

end Tomato
