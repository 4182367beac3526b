import Mathlib.Tactic

/-!
# `kvsnprintf`

The formatter of `snprintf.c`. A byte is a natural number. A string is its bytes without the
NUL that ends it, which it does not contain. The functions fail (`none`) where the code would
read behind the end of the format or write behind the end of its own buffer, and where a loop
has not ended after the given number of rounds.
-/

namespace Tomato

/-- A string, without the NUL at its end. -/
structure CString where
  bytes : List ℕ
  noNul : 0 ∉ bytes
deriving DecidableEq

namespace CString

/-- The bytes of a text. -/
def ofString (s : String) (h : 0 ∉ s.toList.map Char.toNat) : CString := ⟨s.toList.map Char.toNat, h⟩

end CString

/-- The arguments of a call: the slots that `va_arg` reads, and the strings in memory. -/
structure VaList where
  slot : ℕ → BitVec 64
  str : BitVec 64 → CString

namespace Snprintf

/-! ## Numbers -/

/-- The power of ten in `u64toa_r`. -/
def limit : ℕ → ℕ
  | 0 => 1
  | pos + 1 => limit pos * 10 % 2 ^ 64

/-- How often the limit is subtracted, for at most so many rounds, and what is left. -/
def subtractLimit (lim : ℕ) : ℕ → ℕ → ℕ → Option (ℕ × ℕ)
  | 0, _, _ => none
  | fuel + 1, n, dig => if lim ≤ n then subtractLimit lim fuel (n - lim) (dig + 1) else some (dig, n)

/-- The loop of `u64toa_r` from the position below the first argument. -/
def u64toaLoop : ℕ → ℕ → List ℕ → Option (List ℕ)
  | 0, _, buffer => some buffer
  | pos + 1, n, buffer =>
    if buffer.length ≠ 0 ∨ limit pos ≤ n ∨ pos = 0 then
      (subtractLimit (limit pos) (n + 1) n 0).bind fun r =>
        u64toaLoop pos r.2 (buffer ++ ['0'.toNat + r.1])
    else u64toaLoop pos n buffer

def u64toaR (n : ℕ) : Option (List ℕ) := u64toaLoop 20 n []

def i64toaR (n : BitVec 64) : Option (List ℕ) :=
  if n.toInt < 0 then (u64toaR (-n).toNat).map fun ds => '-'.toNat :: ds else u64toaR n.toNat

/-- The loop of `u64toh_r` from the hex digit below the first argument. -/
def u64tohLoop (n : ℕ) : ℕ → List ℕ → List ℕ
  | 0, buffer => buffer
  | pos + 1, buffer =>
    let dig := (n >>> (4 * pos)) &&& 0xF
    let shown := if dig > 9 then dig + ('a'.toNat - '0'.toNat - 10) else dig
    if shown ≠ 0 ∨ buffer.length ≠ 0 ∨ pos = 0 then u64tohLoop n pos (buffer ++ ['0'.toNat + shown])
    else u64tohLoop n pos buffer

def u64tohR (n : ℕ) : List ℕ := u64tohLoop n 16 []

/-! ## The formatter -/

/-- The memory of the buffer with some bytes written to it. -/
def store (mem : ℕ → ℕ) (out : ℕ) (bytes : List ℕ) : ℕ → ℕ := fun i =>
  if out ≤ i then (bytes[i - out]?).getD (mem i) else mem i

/-- The variables of `kvsnprintf`. The addresses `fmt` and `out` are counted from the start of
the format and of the buffer, and `arg` is the next argument. -/
structure State where
  fmt : ℕ
  offset : ℕ
  lpref : ℕ
  escape : Bool
  arg : ℕ
  mem : ℕ → ℕ
  out : ℕ
  n : ℕ
  written : ℕ

/-- `fmt[i]` -/
def charAt (f : CString) (i : ℕ) : Option ℕ := (f.bytes ++ [0])[i]?

/-- The memory from an address in the format on. -/
def formatFrom (f : CString) (i : ℕ) : List ℕ := (f.bytes ++ [0]).drop i

def strlen (s : List ℕ) : ℕ := (s.takeWhile (· ≠ 0)).length

/-- Pads up to the width and copies the string, as far as they fit. -/
def flushStr (s : State) (pad width : ℕ) (outstr : List ℕ) (len : ℕ) : Option State :=
  let padLen := if width > len then width - len else 0
  let p := if padLen < s.n then padLen else s.n
  let n := s.n - p
  let w := if len < n then len else n
  -- the copy stays in the string
  if outstr.length < w then none
  else some { s with
    mem := store (store s.mem s.out (List.replicate p pad)) (s.out + p) (outstr.take w)
    out := s.out + p + w
    n := n - w
    written := (s.written + (padLen + len)) % 2 ^ 64 }

/-- The character that was read last, the offset behind it, and the value of what was read. -/
structure Scan where
  c : ℕ
  offset : ℕ
  value : ℕ
deriving DecidableEq, Repr

/-- The flag for the padding. The value is the character to pad with. -/
def scanPad (f : CString) (fmt c offset : ℕ) : Option Scan :=
  if c = '0'.toNat then (charAt f (fmt + offset)).map fun c' => ⟨c', offset + 1, '0'.toNat⟩
  else some ⟨c, offset, ' '.toNat⟩

/-- The digits of the width, for at most so many rounds. -/
def scanWidth (f : CString) (fmt : ℕ) : ℕ → ℕ → ℕ → ℕ → Option Scan
  | 0, _, _, _ => none
  | fuel + 1, c, offset, width =>
    if '0'.toNat ≤ c ∧ c ≤ '9'.toNat then
      (charAt f (fmt + offset)).bind fun c' =>
        scanWidth f fmt fuel c' (offset + 1) ((width * 10 % 2 ^ 64 + (c - '0'.toNat)) % 2 ^ 64)
    else some ⟨c, offset, width⟩

/-- The modifiers `l`, for at most so many rounds. -/
def scanLong (f : CString) (fmt : ℕ) : ℕ → ℕ → ℕ → ℕ → Option Scan
  | 0, _, _, _ => none
  | fuel + 1, c, offset, lpref =>
    if c = 'l'.toNat then
      (charAt f (fmt + offset)).bind fun c' => scanLong f fmt fuel c' (offset + 1) (lpref + 1)
    else some ⟨c, offset, lpref⟩

/-- The modifier `z`, which counts as a single `l`. -/
def scanSize (f : CString) (fmt c offset lpref : ℕ) : Option Scan :=
  if c = 'z'.toNat ∧ lpref = 0 then (charAt f (fmt + offset)).map fun c' => ⟨c', offset + 1, 1⟩
  else some ⟨c, offset, lpref⟩

/-- The conversions of a number. -/
def IsNumber (c : ℕ) : Prop :=
  c = 'c'.toNat ∨ c = 'd'.toNat ∨ c = 'u'.toNat ∨ c = 'x'.toNat ∨ c = 'p'.toNat

instance (c : ℕ) : Decidable (IsNumber c) := by unfold IsNumber; infer_instance

/-- The value `v`, as `va_arg` and the sign extension leave it. -/
def argValue (slot : BitVec 64) (lpref c : ℕ) : BitVec 64 :=
  let v := if c = 'p'.toNat then slot
    else if lpref ≠ 0 then slot
    else (slot.setWidth 32).setWidth 64
  if c = 'd'.toNat ∧ lpref = 0 then (v.setWidth 32).signExtend 64 else v

/-- The text in `tmpbuf`, which has room for 20 bytes and a NUL. -/
def tmpbuf (v : BitVec 64) (c : ℕ) : Option (List ℕ) := do
  let text ← if c = 'c'.toNat then some [v.toNat % 2 ^ 8]
    else if c = 'd'.toNat then i64toaR v
    else if c = 'u'.toNat then u64toaR v.toNat
    else if c = 'p'.toNat then some ('0'.toNat :: 'x'.toNat :: u64tohR v.toNat)
    else some (u64tohR v.toNat)
  if text.length < 21 then some text else none

def nullText : List ℕ := "(null)".toList.map Char.toNat

/-- From `flush_str` to the end of the round. The loop is left at the end of the format. -/
def flush (s : State) (c pad width : ℕ) (outstr : List ℕ) (len : ℕ) : Option (Bool × State) :=
  (flushStr s pad width outstr len).map fun s =>
    if c = 0 then (true, s) else (false, { s with fmt := s.fmt + s.offset, offset := 0 })

/-- What a round in an escape sequence does with the character of the conversion. -/
def convert (f : CString) (args : VaList) (s : State) (c pad width : ℕ) : Option (Bool × State) :=
  if IsNumber c then
    (tmpbuf (argValue (args.slot s.arg) s.lpref c) c).bind fun text =>
      flush { s with arg := s.arg + 1 } c pad width text (strlen text)
  else if c = 's'.toNat then
    let ptr := args.slot s.arg
    let outstr := if ptr = 0 then nullText else (args.str ptr).bytes
    flush { s with arg := s.arg + 1 } c pad width outstr (strlen outstr)
  else if c = '%'.toNat then some (false, s)
  -- the `%` is right before the escape sequence
  else if s.fmt = 0 then none
  else flush s c pad 0 (formatFrom f (s.fmt - 1)) (if c = 0 then s.offset else s.offset + 1)

/-- A round in an escape sequence, whose first character was read. -/
def escapeRound (f : CString) (args : VaList) (fuel : ℕ) (s : State) (c : ℕ) :
    Option (Bool × State) := do
  let pad ← scanPad f s.fmt c s.offset
  let width ← scanWidth f s.fmt fuel pad.c pad.offset 0
  let long ← scanLong f s.fmt fuel width.c width.offset s.lpref
  let lpref ← scanSize f s.fmt long.c long.offset long.value
  convert f args { s with escape := false, offset := lpref.offset, lpref := lpref.value } lpref.c
    pad.value width.value

/-- A round of the loop, and whether the loop is left. -/
def round (f : CString) (args : VaList) (fuel : ℕ) (s : State) : Option (Bool × State) := do
  let c ← charAt f (s.fmt + s.offset)
  let s := { s with offset := s.offset + 1 }
  if s.escape then escapeRound f args fuel s c
  else if c = 0 ∨ c = '%'.toNat then
    flush { s with escape := true, lpref := 0 } c ' '.toNat 0 (formatFrom f s.fmt) (s.offset - 1)
  else some (false, s)

/-- The loop, for at most so many rounds. -/
def loop (f : CString) (args : VaList) : ℕ → State → Option State
  | 0, _ => none
  | fuel + 1, s => (round f args fuel s).bind fun r =>
    if r.1 then some r.2 else loop f args fuel r.2

/-- `kvsnprintf`, with the memory of the buffer and its size. -/
def kvsnprintf (fuel : ℕ) (f : CString) (args : VaList) (mem : ℕ → ℕ) (size : ℕ) : Option State :=
  (loop f args fuel ⟨0, 0, 0, false, 0, mem, 0, size, 0⟩).map fun s =>
    if size ≠ 0 then
      { s with mem := store s.mem (if s.written < size then s.written else size - 1) [0] }
    else s

end Snprintf

end Tomato
