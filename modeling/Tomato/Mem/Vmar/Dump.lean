import Tomato.Mem.Vmar.TreeRun

/-!
# Dumping the tree

`vmar_dump_children` prints a region with all that is below it. The guide lines of the
ancestors are in a buffer that grows and shrinks in place. `none` is an access outside of the
buffer, or a recursion that is deeper than the given number of levels.
-/

namespace Tomato

open RbTree Ranges Forest Transition

/-! ## The buffer -/

/-- `"├── "` -/
def DUMP_BRANCH : List ℕ := [0xE2, 0x94, 0x9C, 0xE2, 0x94, 0x80, 0xE2, 0x94, 0x80, 0x20]

/-- `"└── "` -/
def DUMP_BRANCH_LAST : List ℕ := [0xE2, 0x94, 0x94, 0xE2, 0x94, 0x80, 0xE2, 0x94, 0x80, 0x20]

/-- `"│   "` -/
def DUMP_INDENT : List ℕ := [0xE2, 0x94, 0x82, 0x20, 0x20, 0x20]

def DUMP_INDENT_LAST : List ℕ := [0x20, 0x20, 0x20, 0x20]

def DUMP_MAX_DEPTH : ℕ := 32

def DUMP_PREFIX_SIZE : ℕ := DUMP_MAX_DEPTH * DUMP_INDENT.length + 1

structure DumpGlyphs where
  branch : List ℕ
  indent : List ℕ
  indentLen : ℕ

def mDumpGlyphs : DumpGlyphs := ⟨DUMP_BRANCH, DUMP_INDENT, DUMP_INDENT.length⟩

def mDumpGlyphsLast : DumpGlyphs := ⟨DUMP_BRANCH_LAST, DUMP_INDENT_LAST, DUMP_INDENT_LAST.length⟩

/-- Bytes are written to the buffer. -/
def writeBytes (buf : List ℕ) (i : ℕ) (bytes : List ℕ) : Option (List ℕ) :=
  if i + bytes.length ≤ buf.length then
    some (buf.take i ++ bytes ++ buf.drop (i + bytes.length))
  else none

/-- The string in the buffer. -/
def readString (buf : List ℕ) : Option (List ℕ) :=
  if 0 ∈ buf then some (buf.takeWhile (· ≠ 0)) else none

/-! ## The lines -/

inductive DumpEntry
  | vmar (x : ℕ)
  | gap (pageCount : ℕ)
deriving DecidableEq

def DumpEntry.vmar? : DumpEntry → Option ℕ
  | .vmar x => some x
  | .gap _ => none

@[simp] theorem DumpEntry.vmar?_vmar (x : ℕ) : (DumpEntry.vmar x).vmar? = some x := rfl

@[simp] theorem DumpEntry.vmar?_gap (n : ℕ) : (DumpEntry.gap n).vmar? = none := rfl

/-- A line that is printed, with the region whose entry it is, if there is one. -/
structure DumpLine where
  region : Option ℕ
  guides : List ℕ
  branch : List ℕ
  start : ℕ
  last : ℕ
  entry : DumpEntry
deriving DecidableEq

namespace Vmars

section

variable (v : Vmars)

/-- The address of the last byte of a range. -/
def lastByte (start size : ℕ) : ℕ := (start + sub64 (size % 2 ^ 64) 1) % 2 ^ 64

def vmarDumpLine (region : Option ℕ) (vmar : ℕ) (buf branch : List ℕ) : Option DumpLine :=
  (readString buf).map fun guides =>
    ⟨region, guides, branch, v.base vmar, lastByte (v.base vmar) (v.pageCount vmar * PAGE_SIZE),
      .vmar vmar⟩

def vmarDumpGap (region firstPage pageCount : ℕ) (buf branch : List ℕ) : Option DumpLine :=
  let start := (firstPage <<< PAGE_SHIFT) % 2 ^ 64
  (readString buf).map fun guides =>
    ⟨some region, guides, branch, start, lastByte start (pageCount <<< PAGE_SHIFT),
      .gap pageCount⟩

/-- The free space before the child. -/
def dumpGapBefore (vmar child : ℕ) (buf : List ℕ) : Option (List DumpLine) :=
  if v.gap child ≠ 0 then
    (vmarDumpGap vmar (sub64 (v.vmarFirstPage child) (v.gap child)) (v.gap child) buf
      DUMP_BRANCH).map fun line => [line]
  else some []

/-- The grandchildren, with the guide line of the child if there is room for it. -/
def dumpBelow (dump : ℕ → List ℕ → ℕ → Option (List DumpLine × List ℕ)) (glyphs : DumpGlyphs)
    (child : ℕ) (buf : List ℕ) (prefixLen : ℕ) : Option (List DumpLine × List ℕ) :=
  let childLen := prefixLen + glyphs.indentLen
  if childLen < DUMP_PREFIX_SIZE then do
    let buf ← writeBytes buf prefixLen ((glyphs.indent ++ [0]).take (glyphs.indentLen + 1))
    let (lines, buf) ← dump child buf childLen
    let buf ← writeBytes buf prefixLen [0]
    some (lines, buf)
  else dump child buf prefixLen

/-- The loop over the children, for at most so many rounds. -/
def dumpLoop (dump : ℕ → List ℕ → ℕ → Option (List DumpLine × List ℕ)) (vmar tailGap : ℕ) :
    ℕ → Option ℕ → List ℕ → ℕ → Option (List DumpLine × List ℕ)
  | _, none, buf, _ => some ([], buf)
  | 0, some _, _, _ => none
  | fuel + 1, some child, buf, prefixLen => do
    let gaps ← v.dumpGapBefore vmar child buf
    let glyphs := if v.next child = none ∧ tailGap = 0 then mDumpGlyphsLast else mDumpGlyphs
    let line ← v.vmarDumpLine (some vmar) child buf glyphs.branch
    let (below, buf) ← dumpBelow dump glyphs child buf prefixLen
    let (rest, buf) ← dumpLoop dump vmar tailGap fuel (v.next child) buf prefixLen
    some (gaps ++ line :: below ++ rest, buf)

/-- The lines that are printed, and the buffer. -/
def vmarDumpChildren : ℕ → ℕ → List ℕ → ℕ → Option (List DumpLine × List ℕ)
  | 0, _, _, _ => none
  | fuel + 1, vmar, buf, prefixLen =>
    if v.kind vmar ≠ .region then some ([], buf)
    else do
      let (tailGap, tailPage) := v.vmarTailGap vmar
      let (lines, buf) ← v.dumpLoop (vmarDumpChildren fuel) vmar tailGap fuel (v.leftmost vmar) buf
        prefixLen
      if tailGap ≠ 0 then
        let line ← vmarDumpGap vmar tailPage tailGap buf DUMP_BRANCH_LAST
        some (lines ++ [line], buf)
      else some (lines, buf)

def vmarDump (fuel root : ℕ) : Option (List DumpLine) := do
  let buf := List.replicate DUMP_PREFIX_SIZE 0
  let line ← v.vmarDumpLine none root buf []
  let (lines, _) ← v.vmarDumpChildren fuel root buf 0
  some (line :: lines)

/-! ## What is printed for a region -/

/-- The line of some pages. -/
def pagesLine (region first n : ℕ) (guides branch : List ℕ) (entry : DumpEntry) : DumpLine :=
  ⟨some region, guides, branch, first * 4096, (first + n) * 4096 - 1, entry⟩

/-- The line of the gap before a child. -/
def gapLines (guides : List ℕ) (region x : ℕ) : List DumpLine :=
  if v.gap x ≠ 0 then
    [pagesLine region (v.vmarFirstPage x - v.gap x) (v.gap x) guides DUMP_BRANCH (.gap (v.gap x))]
  else []

/-- The lines of the children of a region and of the gaps before them. -/
def childLines (guides : List ℕ) (region tailGap : ℕ) : List ℕ → List DumpLine
  | [] => []
  | x :: xs => v.gapLines guides region x ++
    pagesLine region (v.vmarFirstPage x) (v.pageCount x) guides
      (if xs = [] ∧ tailGap = 0 then DUMP_BRANCH_LAST else DUMP_BRANCH) (.vmar x) ::
    childLines guides region tailGap xs

/-- The line of the gap after the last child. -/
def tailLines (guides : List ℕ) (region first n : ℕ) : List DumpLine :=
  if n ≠ 0 then [pagesLine region first n guides DUMP_BRANCH_LAST (.gap n)] else []

/-- The lines follow one another from the byte `a` on, up to the byte before `b`. -/
def Tiles : ℕ → ℕ → List DumpLine → Prop
  | a, b, [] => a = b
  | a, b, l :: ls => l.start = a ∧ a ≤ l.last ∧ Tiles (l.last + 1) b ls

/-- The last line closes the branch, and no other does. -/
def Closed : List DumpLine → Prop
  | [] => True
  | l :: ls => l.branch = (if ls = [] then DUMP_BRANCH_LAST else DUMP_BRANCH) ∧ Closed ls

/-- The lines are the entries of the region: they cover it, its children are among them in
order, and the last one closes it. -/
structure Entries (region : ℕ) (ls : List DumpLine) : Prop where
  tiles : Tiles (v.base region) (v.base region + v.pageCount region * 4096) ls
  children : ls.filterMap (fun l => l.entry.vmar?) = (v.children region).toList
  range : ∀ l ∈ ls, ∀ x, l.entry = .vmar x →
    l.start = v.base x ∧ l.last + 1 = v.base x + v.pageCount x * 4096
  free : ∀ l ∈ ls, ∀ n, l.entry = .gap n → l.last + 1 = l.start + n * 4096 ∧
    ∀ x, v.parent x = some region → Disjoint (Set.Icc l.start l.last) (v.bytes x)
  closed : Closed ls
  guides : ∃ p, ∀ l ∈ ls, l.guides = p

/-- The lines that are printed for the entries of a region. -/
def linesOf (region : ℕ) (ls : List DumpLine) : List DumpLine :=
  ls.filter fun l => l.region = some region

/-- The entries of every region from `x` down are printed, and nothing else is. -/
structure Dumps (x : ℕ) (ls : List DumpLine) : Prop where
  region : ∀ l ∈ ls, ∃ r, l.region = some r ∧ Below v.parent r x ∧ v.kind r = .region
  entries : ∀ r, Below v.parent r x → v.kind r = .region → v.Entries r (linesOf r ls)

end

variable {v : Vmars} {roots : Set ℕ} {r x y n first region tailGap a b c m : ℕ} {xs rest : List ℕ}
  {l : DumpLine} {ls ms : List DumpLine} {p t buf bytes guides branch : List ℕ}
  {entry : DumpEntry} {glyphs : DumpGlyphs}

/-! ## The entries of a region -/

@[simp] theorem entry_pagesLine :
    (pagesLine region first n guides branch entry).entry = entry := rfl

@[simp] theorem region_pagesLine :
    (pagesLine region first n guides branch entry).region = some region := rfl

theorem Tiles.append (h : Tiles a b ls) (h' : Tiles b c ms) : Tiles a c (ls ++ ms) := by
  induction ls generalizing a with
  | nil => exact h ▸ h'
  | cons l ls ih => exact ⟨h.1, h.2.1, ih h.2.2⟩

theorem tiles_pagesLine (hn : 0 < n) : Tiles (first * 4096) ((first + n) * 4096)
    [pagesLine region first n guides branch entry] := by
  simp only [Tiles, pagesLine, true_and]
  omega

theorem Tiles.le (h : Tiles a b ls) : a ≤ b := by
  induction ls generalizing a with
  | nil => exact h.le
  | cons l ls ih =>
    have hle := ih h.2.2
    have := h.2.1
    omega

theorem Tiles.mem (h : Tiles a b ls) (hl : l ∈ ls) : a ≤ l.start ∧ l.start ≤ l.last ∧ l.last < b := by
  induction ls generalizing a with
  | nil => simp at hl
  | cons l' ls ih =>
    obtain ⟨h1, h2, h3⟩ := h
    rcases List.mem_cons.mp hl with rfl | hl
    · exact ⟨h1.ge, h1.le.trans h2, h3.le⟩
    · have hmem := ih h3 hl
      exact ⟨by omega, hmem.2⟩

theorem Tiles.pairwise (h : Tiles a b ls) : ls.Pairwise fun l l' => l.last < l'.start := by
  induction ls generalizing a with
  | nil => exact .nil
  | cons l ls ih => exact .cons (fun l' hl' => (h.2.2.mem hl').1) (ih h.2.2)

/-- Two lines have no byte in common. -/
theorem Tiles.disjoint (h : Tiles a b ls) {l' : DumpLine} (hl : l ∈ ls) (hl' : l' ∈ ls)
    (hne : l ≠ l') : l.last < l'.start ∨ l'.last < l.start := by
  have hp : ls.Pairwise fun l l' => l.last < l'.start ∨ l'.last < l.start :=
    h.pairwise.imp fun hlt => Or.inl hlt
  have : Std.Symm fun l l' : DumpLine => l.last < l'.start ∨ l'.last < l.start :=
    ⟨fun _ _ => Or.symm⟩
  exact hp.forall hl hl' hne

/-- A line of a region is one of a child, or one of the gap before it. -/
theorem mem_childLines (hl : l ∈ v.childLines guides region tailGap xs) : ∃ branch, ∃ x ∈ xs,
    l = pagesLine region (v.vmarFirstPage x) (v.pageCount x) guides branch (.vmar x) ∨
      v.gap x ≠ 0 ∧ l = pagesLine region (v.vmarFirstPage x - v.gap x) (v.gap x) guides branch
        (.gap (v.gap x)) := by
  induction xs with
  | nil => simp [childLines] at hl
  | cons x xs ih =>
    rw [childLines, List.mem_append, List.mem_cons] at hl
    rcases hl with hl | rfl | hl
    · rw [gapLines] at hl
      split at hl
      · rename_i hgap
        exact ⟨_, x, by simp, Or.inr ⟨hgap, by simpa using hl⟩⟩
      · simp at hl
    · exact ⟨_, x, by simp, Or.inl rfl⟩
    · obtain ⟨branch, y, hy, h⟩ := ih hl
      exact ⟨branch, y, List.mem_cons_of_mem x hy, h⟩

theorem mem_tailLines (hl : l ∈ tailLines guides region first n) : n ≠ 0 ∧
    l = pagesLine region first n guides DUMP_BRANCH_LAST (.gap n) := by
  rw [tailLines] at hl
  split at hl
  · rename_i hn
    exact ⟨hn, by simpa using hl⟩
  · simp at hl

theorem tiles_childLines (hp : Packed v.vmarFirstPage v.pageEnd a b xs)
    (hg : Gaps v.vmarFirstPage v.pageEnd v.gap a xs) :
    Tiles (a * 4096) (endOf v.pageEnd a xs * 4096) (v.childLines guides region tailGap xs) := by
  induction xs generalizing a with
  | nil => rfl
  | cons x xs ih =>
    obtain ⟨h1, h2, h3⟩ := hp
    rw [childLines, endOf_cons]
    have hchild : Tiles (v.vmarFirstPage x * 4096) (v.pageEnd x * 4096) [pagesLine region
        (v.vmarFirstPage x) (v.pageCount x) guides (if xs = [] ∧ tailGap = 0 then DUMP_BRANCH_LAST
          else DUMP_BRANCH) (.vmar x)] := tiles_pagesLine (by rw [pageEnd] at h2; omega)
    refine Tiles.append (b := v.vmarFirstPage x * 4096) ?_ (hchild.append (ih h3 hg.2))
    have hgap := hg.1
    rw [gapLines]
    split
    · have hends : v.vmarFirstPage x - v.gap x = a ∧ a + v.gap x = v.vmarFirstPage x := by omega
      rw [hends.1, ← hends.2]
      exact tiles_pagesLine (by omega)
    · exact congrArg (· * 4096) (show a = v.vmarFirstPage x by omega)

theorem filterMap_childLines :
    (v.childLines guides region tailGap xs).filterMap (fun l => l.entry.vmar?) = xs := by
  induction xs with
  | nil => rfl
  | cons x xs ih =>
    rw [childLines, gapLines]
    split <;> simp [List.filterMap_cons, ih]

/-- The last line is the one of the gap at the end, or the one of the last child. -/
theorem closed_lines : Closed (v.childLines guides region n xs ++ tailLines guides region first n) := by
  induction xs with
  | nil =>
    rw [childLines, List.nil_append, tailLines]
    split
    · exact ⟨rfl, trivial⟩
    · trivial
  | cons x xs ih =>
    have hnil : v.childLines guides region n xs ++ tailLines guides region first n = [] ↔
        xs = [] ∧ n = 0 := by
      cases xs with
      | nil => simp [childLines, tailLines]
      | cons y ys => simp [childLines]
    have hchild : Closed (pagesLine region (v.vmarFirstPage x) (v.pageCount x) guides
        (if xs = [] ∧ n = 0 then DUMP_BRANCH_LAST else DUMP_BRANCH) (.vmar x) ::
        (v.childLines guides region n xs ++ tailLines guides region first n)) := by
      refine ⟨?_, ih⟩
      simp only [hnil]
      rfl
    rw [childLines, List.append_assoc, gapLines]
    split
    · exact ⟨rfl, hchild⟩
    · exact hchild

/-- What is printed for a region are its entries. -/
theorem ChildrenOk.entries (h : v.ChildrenOk r xs) (hmem : ∀ x, v.parent x = some r → x ∈ xs)
    (hd : ∀ x, x = r ∨ x ∈ xs → 4096 ∣ v.base x)
    (hn : n = v.pageEnd r - endOf v.pageEnd (v.vmarFirstPage r) xs)
    (hfirst : first = endOf v.pageEnd (v.vmarFirstPage r) xs) :
    v.Entries r (v.childLines guides r n xs ++ tailLines guides r first n) := by
  have hbase : ∀ x, x = r ∨ x ∈ xs → v.base x = v.vmarFirstPage x * 4096 := fun x hx => by
    rw [vmarFirstPage_eq, Nat.div_mul_cancel (hd x hx)]
  have htiles : Tiles (v.base r) (v.base r + v.pageCount r * 4096)
      (v.childLines guides r n xs ++ tailLines guides r first n) := by
    rw [hbase r (Or.inl rfl), ← Nat.add_mul, ← pageEnd]
    refine (tiles_childLines h.packed h.gaps).append ?_
    have hle := h.packed.endOf_le
    rw [tailLines, hfirst]
    split
    · have hend : v.pageEnd r = endOf v.pageEnd (v.vmarFirstPage r) xs + n := by omega
      rw [hend]
      exact tiles_pagesLine (by omega)
    · exact congrArg (· * 4096) (show endOf v.pageEnd (v.vmarFirstPage r) xs = v.pageEnd r by omega)
  have hrange : ∀ l ∈ v.childLines guides r n xs ++ tailLines guides r first n, ∀ x,
      l.entry = .vmar x → l.start = v.base x ∧ l.last + 1 = v.base x + v.pageCount x * 4096 := by
    intro l hl x hx
    rcases List.mem_append.mp hl with hl | hl
    · obtain ⟨branch, y, hy, rfl | ⟨-, rfl⟩⟩ := mem_childLines hl
      · obtain rfl : y = x := DumpEntry.vmar.inj hx
        have hpos := (h.mem hy).2.1
        rw [pageEnd] at hpos
        rw [hbase y (Or.inr hy)]
        refine ⟨rfl, ?_⟩
        simp only [pagesLine]
        omega
      · simp [pagesLine] at hx
    · obtain ⟨-, rfl⟩ := mem_tailLines hl
      simp [pagesLine] at hx
  have hchildren : (v.childLines guides r n xs ++ tailLines guides r first n).filterMap
      (fun l => l.entry.vmar?) = xs := by
    rw [List.filterMap_append, filterMap_childLines, tailLines]
    split <;> simp [pagesLine]
  refine ⟨htiles, hchildren.trans h.tree.toList.symm, hrange, fun l hl k hk => ⟨?_, fun x hx => ?_⟩,
    closed_lines, ⟨guides, fun l hl => ?_⟩⟩
  · rcases List.mem_append.mp hl with hl | hl
    · obtain ⟨branch, y, hy, rfl | ⟨hgap, rfl⟩⟩ := mem_childLines hl
      · simp [pagesLine] at hk
      · obtain rfl : v.gap y = k := DumpEntry.gap.inj hk
        simp only [pagesLine]
        omega
    · obtain ⟨hpos, rfl⟩ := mem_tailLines hl
      obtain rfl : n = k := DumpEntry.gap.inj hk
      simp only [pagesLine]
      omega
  · -- the child has a line of its own
    obtain ⟨l', hl', he⟩ := List.mem_filterMap.mp (hchildren ▸ hmem x hx)
    have hvmar : l'.entry = .vmar x := by
      cases hentry : l'.entry with
      | vmar y => simpa [hentry] using he
      | gap k => simp [hentry] at he
    obtain ⟨hs, hlast⟩ := hrange l' hl' x hvmar
    have hne : l ≠ l' := by
      rintro rfl
      simp [hk] at hvmar
    rw [Set.disjoint_left]
    intro q hq hqx
    simp only [Set.mem_Icc, Vmars.bytes, Set.mem_Ico] at hq hqx
    rcases htiles.disjoint hl hl' hne with hlt | hlt <;> omega
  · rcases List.mem_append.mp hl with hl | hl
    · obtain ⟨branch, y, -, rfl | ⟨-, rfl⟩⟩ := mem_childLines hl <;> rfl
    · obtain ⟨-, rfl⟩ := mem_tailLines hl
      rfl

/-! ## The lines and the buffer -/

theorem lastByte_eq (hn : 0 < n) (hle : a + n ≤ 2 ^ 64) : lastByte a n = a + n - 1 := by
  rw [lastByte, sub64]
  omega

theorem readString_eq (hp : 0 ∉ p) : readString (p ++ 0 :: t) = some p := by
  have hne : ∀ c ∈ p, c ≠ 0 := by
    rintro c hc rfl
    exact hp hc
  rw [readString, if_pos (by simp), List.takeWhile_append_of_pos (by simpa using hne)]
  simp

/-- What is behind the string in the buffer is written over. -/
theorem writeBytes_eq (hlen : bytes.length ≤ t.length) :
    writeBytes (p ++ t) p.length bytes = some (p ++ bytes ++ t.drop bytes.length) := by
  rw [writeBytes, if_pos (by simpa using hlen), List.take_left, ← List.drop_drop, List.drop_left]

theorem vmarDumpGap_eq (hp : 0 ∉ p) (hn : 0 < n) (hle : first + n ≤ 2 ^ 52) :
    vmarDumpGap region first n (p ++ 0 :: t) branch =
      some (pagesLine region first n p branch (.gap n)) := by
  have hshift : ∀ q, q <<< PAGE_SHIFT = q * 4096 := fun q => Nat.shiftLeft_eq q 12
  have hstart : (first * 4096) % 2 ^ 64 = first * 4096 := Nat.mod_eq_of_lt (by omega)
  rw [vmarDumpGap, readString_eq hp, hshift, hshift, hstart, lastByte_eq (by omega) (by omega),
    ← Nat.add_mul]
  rfl

theorem vmarDumpLine_eq (hp : 0 ∉ p) (hd : 4096 ∣ v.base x) (hn : v.vmarFirstPage x < v.pageEnd x)
    (hle : v.pageEnd x ≤ 2 ^ 52) : v.vmarDumpLine (some region) x (p ++ 0 :: t) branch =
      some (pagesLine region (v.vmarFirstPage x) (v.pageCount x) p branch (.vmar x)) := by
  have hbase : v.base x = v.vmarFirstPage x * 4096 := by
    rw [vmarFirstPage_eq, Nat.div_mul_cancel hd]
  rw [pageEnd] at hn hle
  rw [vmarDumpLine, readString_eq hp, show PAGE_SIZE = 4096 from rfl, hbase,
    lastByte_eq (by omega) (by omega), ← Nat.add_mul]
  rfl

theorem linesOf_append : linesOf r (ls ++ ms) = linesOf r ls ++ linesOf r ms :=
  List.filter_append ..

theorem linesOf_eq_self (h : ∀ l ∈ ls, l.region = some r) : linesOf r ls = ls :=
  List.filter_eq_self.mpr (by simpa using h)

theorem linesOf_eq_nil (h : ∀ l ∈ ls, l.region ≠ some r) : linesOf r ls = [] :=
  List.filter_eq_nil_iff.mpr (by simpa using h)

theorem region_childLines (hl : l ∈ v.childLines guides region tailGap xs) :
    l.region = some region := by
  obtain ⟨branch, y, -, rfl | ⟨-, rfl⟩⟩ := mem_childLines hl <;> rfl

theorem region_tailLines (hl : l ∈ tailLines guides region first n) : l.region = some region := by
  obtain ⟨-, rfl⟩ := mem_tailLines hl
  rfl

/-! ## The recursion -/

/-- What is known of a call to `vmar_dump_children` that goes down so many levels: it prints all
that it has to, and the string in the buffer is the one from before. -/
def DumpSpec (v : Vmars) (roots : Set ℕ) (fuel : ℕ)
    (dump : ℕ → List ℕ → ℕ → Option (List DumpLine × List ℕ)) : Prop :=
  ∀ x p t, v.InTree roots x → Bounded v.parent fuel x → 0 ∉ p →
    p.length + 1 + t.length = DUMP_PREFIX_SIZE →
    ∃ ls t', dump x (p ++ 0 :: t) p.length = some (ls, p ++ 0 :: t') ∧ t'.length = t.length ∧
      v.Dumps x ls

variable {dump : ℕ → List ℕ → ℕ → Option (List DumpLine × List ℕ)} {fuel : ℕ}

/-- The guide line of a child is taken back. -/
theorem dumpBelow_spec (hspec : DumpSpec v roots fuel dump) (hx : v.InTree roots x)
    (hb : Bounded v.parent fuel x) (hp : 0 ∉ p) (hlen : p.length + 1 + t.length = DUMP_PREFIX_SIZE)
    (hi : 0 ∉ glyphs.indent) (hil : glyphs.indentLen = glyphs.indent.length) :
    ∃ ls t', dumpBelow dump glyphs x (p ++ 0 :: t) p.length = some (ls, p ++ 0 :: t') ∧
      t'.length = t.length ∧ v.Dumps x ls := by
  rw [dumpBelow]
  by_cases hroom : p.length + glyphs.indentLen < DUMP_PREFIX_SIZE
  · have htake : (glyphs.indent ++ [0]).take (glyphs.indentLen + 1) = glyphs.indent ++ [0] :=
      List.take_of_length_le (by simp [hil])
    have hwrite : writeBytes (p ++ 0 :: t) p.length (glyphs.indent ++ [0]) =
        some ((p ++ glyphs.indent) ++ 0 :: t.drop glyphs.indent.length) := by
      rw [writeBytes_eq (by simp; omega)]
      simp
    obtain ⟨ls, t', e, hlen', hdumps⟩ := hspec x (p ++ glyphs.indent)
      (t.drop glyphs.indent.length) hx hb (by simp [hp, hi])
      (by simp only [List.length_append, List.length_drop]; omega)
    have hback : writeBytes ((p ++ glyphs.indent) ++ 0 :: t') p.length [0] =
        some (p ++ 0 :: (glyphs.indent ++ 0 :: t').drop 1) := by
      rw [List.append_assoc, writeBytes_eq (by simp; omega), List.append_assoc]
      rfl
    have hchild : (p ++ glyphs.indent).length = p.length + glyphs.indentLen := by simp [hil]
    rw [hchild] at e
    refine ⟨ls, (glyphs.indent ++ 0 :: t').drop 1, ?_, ?_, hdumps⟩
    · simp only [hroom, if_true, htake, hwrite, Option.bind_eq_bind, Option.bind_some, e, hback]
    · simp only [List.length_drop, List.length_append, List.length_cons] at hlen' ⊢
      omega
  · simp only [hroom, if_false]
    exact hspec x p t hx hb hp hlen

/-- The lines of the children in `rest`, with all that is below them. -/
structure Level (v : Vmars) (r tailGap : ℕ) (p rest : List ℕ) (ls : List DumpLine) : Prop where
  own : linesOf r ls = v.childLines p r tailGap rest
  entries : ∀ c ∈ rest, ∀ z, Below v.parent z c → v.kind z = .region → v.Entries z (linesOf z ls)
  region : ∀ l ∈ ls, l.region = some r ∨
    ∃ c ∈ rest, ∃ z, l.region = some z ∧ Below v.parent z c ∧ v.kind z = .region

/-- No line of one child is an entry of the region, or of what is below another child. -/
theorem Level.cons (hv : VmarsOk roots v) (hpar : ∀ c ∈ x :: rest, v.parent c = some r)
    (hx : x ∉ rest) (hown : ∀ l ∈ ms, l.region = some r) (hd : v.Dumps x ls) {ls' : List DumpLine}
    (hl : v.Level r tailGap p rest ls')
    (hms : ms ++ v.childLines p r tailGap rest = v.childLines p r tailGap (x :: rest)) :
    v.Level r tailGap p (x :: rest) (ms ++ ls ++ ls') := by
  obtain ⟨rank, hrank⟩ := hv.ranked
  have hnot : ∀ c ∈ x :: rest, ¬ Below v.parent r c := fun c hc => hrank.not_below (hpar c hc)
  have hapart : ∀ c ∈ rest, ∀ z, Below v.parent z x → ¬ Below v.parent z c := by
    intro c hc z hzx hzc
    exact hx (hrank.eq_of_siblings (hpar x (by simp)) (hpar c (by simp [hc])) hzx hzc ▸ hc)
  have hother : ∀ z, z ≠ r → linesOf z ms = [] := fun z hz => linesOf_eq_nil fun l hl he => by
    rw [hown l hl, Option.some.injEq] at he
    exact hz he.symm
  refine ⟨?_, fun c hc z hz hk => ?_, fun l hmem => ?_⟩
  · have hbelow : linesOf r ls = [] := linesOf_eq_nil fun l hl he => by
      obtain ⟨z, hz, hb, -⟩ := hd.region l hl
      rw [hz, Option.some.injEq] at he
      exact hnot x (by simp) (he ▸ hb)
    rw [linesOf_append, linesOf_append, linesOf_eq_self hown, hbelow, hl.own, List.append_nil, hms]
  · have hzr : z ≠ r := by
      rintro rfl
      exact hnot c hc hz
    rw [linesOf_append, linesOf_append, hother z hzr, List.nil_append]
    rcases List.mem_cons.mp hc with rfl | hc
    · have hrest : linesOf z ls' = [] := linesOf_eq_nil fun l hl' he => by
        rcases hl.region l hl' with hr | ⟨c', hc', z', hz', hb, -⟩
        · rw [hr, Option.some.injEq] at he
          exact hzr he.symm
        · rw [hz', Option.some.injEq] at he
          exact hapart c' hc' z hz (he ▸ hb)
      rw [hrest, List.append_nil]
      exact hd.entries z hz hk
    · have hbelow : linesOf z ls = [] := linesOf_eq_nil fun l hl' he => by
        obtain ⟨z', hz', hb, -⟩ := hd.region l hl'
        rw [hz', Option.some.injEq] at he
        exact hapart c hc z (he ▸ hb) hz
      rw [hbelow, List.nil_append]
      exact hl.entries c hc z hz hk
  · simp only [List.mem_append, or_assoc] at hmem
    rcases hmem with hmem | hmem | hmem
    · exact Or.inl (hown l hmem)
    · exact Or.inr ⟨x, by simp, hd.region l hmem⟩
    · rcases hl.region l hmem with hr | ⟨c, hc, hz⟩
      · exact Or.inl hr
      · exact Or.inr ⟨c, List.mem_cons_of_mem x hc, hz⟩

/-- With the gap at the end, all of the region is printed. -/
theorem Level.dumps (hl : v.Level r n p xs ls) (hpar : ∀ c, c ∈ xs → v.parent c = some r)
    (hmem : ∀ c, v.parent c = some r → c ∈ xs) (hk : v.kind r = .region)
    (he : v.Entries r (v.childLines p r n xs ++ tailLines p r first n)) :
    v.Dumps r (ls ++ tailLines p r first n) := by
  refine ⟨fun l hmem' => ?_, fun z hz hkz => ?_⟩
  · rcases List.mem_append.mp hmem' with hl' | hl'
    · rcases hl.region l hl' with hr | ⟨c, hc, z, hz, hb, hkz⟩
      · exact ⟨r, hr, .refl r, hk⟩
      · exact ⟨z, hz, hb.tail (hpar c hc), hkz⟩
    · exact ⟨r, region_tailLines hl', .refl r, hk⟩
  · by_cases hzr : z = r
    · subst hzr
      rwa [linesOf_append, hl.own, linesOf_eq_self fun l hl' => region_tailLines hl']
    · rcases Relation.ReflTransGen.cases_tail hz with he' | ⟨c, hb, hc⟩
      · exact absurd he'.symm hzr
      · have htail : linesOf z (tailLines p r first n) = [] := linesOf_eq_nil fun l hl' he' => by
          rw [region_tailLines hl', Option.some.injEq] at he'
          exact hzr he'.symm
        rw [linesOf_append, htail, List.append_nil]
        exact hl.entries c (hmem c hc) z hb hkz

theorem dumpGapBefore_eq (hp : 0 ∉ p) (hg : v.gap x ≤ v.vmarFirstPage x)
    (hle : v.vmarFirstPage x ≤ 2 ^ 52) :
    v.dumpGapBefore r x (p ++ 0 :: t) = some (v.gapLines p r x) := by
  rw [dumpGapBefore, gapLines]
  split
  · rw [sub64_eq hg (by omega), vmarDumpGap_eq hp (by omega) (by omega), Option.map_some]
  · rfl

/-- The loop over the children of a region. -/
theorem dumpLoop_spec (hspec : DumpSpec v roots fuel dump) (hv : VmarsOk roots v) {A : List ℕ}
    (hok : v.ChildrenOk r (A ++ rest)) (hpar : ∀ c ∈ rest, v.parent c = some r)
    (hb : ∀ c ∈ rest, Bounded v.parent fuel c) (hm : rest.length ≤ m) (hp : 0 ∉ p)
    (hlen : p.length + 1 + t.length = DUMP_PREFIX_SIZE) :
    ∃ ls t', v.dumpLoop dump r tailGap m rest.head? (p ++ 0 :: t) p.length =
      some (ls, p ++ 0 :: t') ∧ t'.length = t.length ∧ v.Level r tailGap p rest ls := by
  induction rest generalizing A m t with
  | nil =>
    refine ⟨[], t, ?_, rfl, rfl, by simp, by simp⟩
    cases m <;> rfl
  | cons x rest ih =>
    have hxin : v.InTree roots x := Or.inr (by simp [hpar x (by simp)])
    have hnext : v.next x = rest.head? := hok.tree.links.next A x rest rfl
    have hnd := List.nodup_middle.mp hok.tree.nodup
    have hbound := hv.bound x hxin
    have hrange := hok.mem (show x ∈ A ++ x :: rest by simp)
    have hgap := (Gaps.append_cons_iff.mp hok.gaps).2.1
    obtain ⟨m, rfl⟩ : ∃ k, m = k + 1 := ⟨m - 1, by rw [List.length_cons] at hm; omega⟩
    obtain ⟨glyphs, hglyphs⟩ : ∃ glyphs, glyphs =
        if v.next x = none ∧ tailGap = 0 then mDumpGlyphsLast else mDumpGlyphs := ⟨_, rfl⟩
    have hbranch : glyphs.branch = if rest = [] ∧ tailGap = 0 then DUMP_BRANCH_LAST
        else DUMP_BRANCH := by
      simp only [hglyphs, hnext, List.head?_eq_none_iff]
      split <;> rfl
    have hi : 0 ∉ glyphs.indent ∧ glyphs.indentLen = glyphs.indent.length := by
      rw [hglyphs]
      split <;> decide
    have hgapLine := dumpGapBefore_eq (t := t) (r := r) hp (show v.gap x ≤ v.vmarFirstPage x by omega)
      (by omega)
    obtain ⟨line, hline'⟩ : ∃ line, line = pagesLine r (v.vmarFirstPage x) (v.pageCount x) p
        glyphs.branch (.vmar x) := ⟨_, rfl⟩
    have hline : v.vmarDumpLine (some r) x (p ++ 0 :: t) glyphs.branch = some line := by
      rw [vmarDumpLine_eq hp hbound.2 hrange.2.1 hbound.1, hline']
    obtain ⟨below, t1, e1, hlen1, hdumps⟩ := dumpBelow_spec hspec hxin (hb x (by simp)) hp hlen
      hi.1 hi.2
    have hsplit : A ++ x :: rest = (A ++ [x]) ++ rest := by simp
    obtain ⟨ls, t2, e2, hlen2, hlevel⟩ := ih (m := m) (t := t1) (hsplit ▸ hok)
      (fun c hc => hpar c (by simp [hc])) (fun c hc => hb c (by simp [hc]))
      (by simpa using hm) (by omega)
    refine ⟨v.gapLines p r x ++ [line] ++ below ++ ls, t2, ?_, hlen2.trans hlen1,
      Level.cons hv hpar (fun hx => (List.nodup_cons.mp hnd).1 (List.mem_append_right A hx))
        (fun l hl => ?_) hdumps hlevel ?_⟩
    · rw [List.head?_cons, dumpLoop]
      simp only [hgapLine, ← hglyphs, hline, e1, Option.bind_eq_bind, Option.bind_some]
      rw [hnext, e2, Option.bind_some]
      simp
    · rw [gapLines, hline'] at hl
      split at hl
      · rcases List.mem_pair.mp hl with rfl | rfl <;> rfl
      · obtain rfl := List.mem_singleton.mp hl
        rfl
    · rw [childLines, hline', hbranch, List.append_assoc]
      rfl

/-- `vmar_dump_children` goes down as far as it has to. -/
theorem dumpSpec (hv : VmarsOk roots v) (fuel : ℕ) :
    DumpSpec v roots fuel (v.vmarDumpChildren fuel) := by
  induction fuel with
  | zero => exact fun x p t _ hb => hb.elim
  | succ fuel ih =>
    intro x p t hx hb hp hlen
    rw [vmarDumpChildren]
    by_cases hk : v.kind x = .region
    · obtain ⟨xs, hok, hmem⟩ := hv.children x
      have hbound := hv.bound x hx
      have htail := hok.vmarTailGap_eq (by omega)
      have hendOf := hok.packed.endOf_le
      obtain ⟨first, hfirst⟩ : ∃ e, e = endOf v.pageEnd (v.vmarFirstPage x) xs := ⟨_, rfl⟩
      obtain ⟨n, hn⟩ : ∃ n, n = v.pageEnd x - first := ⟨_, rfl⟩
      rw [← hfirst] at htail hendOf
      rw [← hn] at htail
      have hlenxs : xs.length ≤ fuel := by
        obtain ⟨⟨ys, hys, hin⟩, -⟩ := hb
        exact (List.Nodup.length_le_of_subset hok.tree.nodup fun z hz =>
          hin z ((hmem z).mp hz)).trans hys
      obtain ⟨ls, t', e, hlen', hlevel⟩ : ∃ ls t', v.dumpLoop (v.vmarDumpChildren fuel) x n fuel
          xs.head? (p ++ 0 :: t) p.length = some (ls, p ++ 0 :: t') ∧ t'.length = t.length ∧
          v.Level x n p xs ls :=
        dumpLoop_spec (A := []) ih hv hok (fun c hc => (hmem c).mp hc)
          (fun c hc => hb.2 c ((hmem c).mp hc)) hlenxs hp hlen
      refine ⟨ls ++ tailLines p x first n, t', ?_, hlen', ?_⟩
      · rw [if_neg (by simp [hk]), htail, show v.leftmost x = xs.head? from hok.tree.links.leftmost]
        simp only [e, Option.bind_eq_bind, Option.bind_some, tailLines]
        split
        · rw [vmarDumpGap_eq hp (by omega) (by omega), Option.bind_some]
        · rw [List.append_nil]
      · have hd : ∀ c, c = x ∨ c ∈ xs → 4096 ∣ v.base c := by
          rintro c (rfl | hc)
          · exact hbound.2
          · exact (hv.bound c (Or.inr (by simp [(hmem c).mp hc]))).2
        exact hlevel.dumps (fun c => (hmem c).mp) (fun c => (hmem c).mpr) hk
          (hok.entries (fun c => (hmem c).mpr) hd (by rw [hn, hfirst]) hfirst)
    · refine ⟨[], t, by rw [if_pos (by simpa using hk)], rfl, by simp, fun r hr hkr => ?_⟩
      obtain rfl := hr.eq_of_leaf (hv.leaf_of_kind hk)
      exact absurd hkr hk

/-- What is in front of the NUL in the buffer. -/
theorem exists_of_readString (h : readString buf = some p) : ∃ t, buf = p ++ 0 :: t ∧ 0 ∉ p := by
  rw [readString] at h
  split at h
  · rename_i hmem
    obtain ⟨q, t, rfl, hq⟩ := List.eq_append_cons_of_mem hmem
    have hread := (if_pos hmem).symm.trans (readString_eq (t := t) hq)
    obtain rfl : q = p := by
      rw [h] at hread
      exact (Option.some.inj hread).symm
    exact ⟨t, rfl, hq⟩
  · simp at h

end Vmars

variable {k : Kernel} {r : VmmRun} {x : ℕ} {buf p : List ℕ}

/-- However deep and wide the tree is, `vmar_dump_children` stays in its buffer, leaves the
string in it as it was, and prints the entries of every region. -/
theorem dump_of_reachable (h : Reachable (VmmRun.Initial k) (VmmRun.Step k) r)
    (hx : r.vmm.vmars.InTree k.roots x) (hlen : buf.length = DUMP_PREFIX_SIZE)
    (hp : readString buf = some p) :
    ∃ n, ∀ fuel, n ≤ fuel → ∃ ls buf',
      r.vmm.vmars.vmarDumpChildren fuel x buf p.length = some (ls, buf') ∧
      buf'.length = DUMP_PREFIX_SIZE ∧ readString buf' = some p ∧ r.vmm.vmars.Dumps x ls := by
  have hok := (VmmRun.good_of_reachable h).ok
  obtain ⟨n, hn⟩ := hok.exists_bounded x
  obtain ⟨t, rfl, h0⟩ := Vmars.exists_of_readString hp
  have hbuf : p.length + 1 + t.length = DUMP_PREFIX_SIZE := by
    rw [← hlen, List.length_append, List.length_cons]
    omega
  refine ⟨n, fun fuel hfuel => ?_⟩
  obtain ⟨ls, t', e, hlen', hd⟩ := Vmars.dumpSpec hok.tree fuel x p t hx (hn.mono hfuel) h0 hbuf
  refine ⟨ls, _, e, ?_, Vmars.readString_eq h0, hd⟩
  rw [List.length_append, List.length_cons, hlen', ← hbuf]
  omega

theorem dump_smallKernel : ∃ r, VmmRun.Initial smallKernel r ∧
    ∃ n, ∀ fuel, n ≤ fuel → ∃ ls buf',
      r.vmm.vmars.vmarDumpChildren fuel smallKernel.kernelRegion
        (List.replicate DUMP_PREFIX_SIZE 0) 0 = some (ls, buf') ∧
      buf'.length = DUMP_PREFIX_SIZE ∧ readString buf' = some [] ∧
      r.vmm.vmars.Dumps smallKernel.kernelRegion ls := by
  obtain ⟨r, h⟩ := exists_initial
  exact ⟨r, h, dump_of_reachable (p := []) (.start h) (Or.inl (Or.inl rfl)) List.length_replicate
    rfl⟩

/-- `vmar_dump` prints the root and all that is below it. -/
theorem vmarDump_of_reachable (h : Reachable (VmmRun.Initial k) (VmmRun.Step k) r)
    (hx : r.vmm.vmars.InTree k.roots x) :
    ∃ n, ∀ fuel, n ≤ fuel → ∃ line ls, r.vmm.vmars.vmarDump fuel x = some (line :: ls) ∧
      line.region = none ∧ line.entry = .vmar x ∧ r.vmm.vmars.Dumps x ls := by
  obtain ⟨n, hn⟩ := dump_of_reachable h hx List.length_replicate
    (show readString (List.replicate DUMP_PREFIX_SIZE 0) = some [] from rfl)
  refine ⟨n, fun fuel hfuel => ?_⟩
  obtain ⟨ls, buf', e, -, -, hd⟩ := hn fuel hfuel
  rw [List.length_nil] at e
  refine ⟨⟨none, [], [], r.vmm.vmars.base x, Vmars.lastByte (r.vmm.vmars.base x)
    (r.vmm.vmars.pageCount x * PAGE_SIZE), .vmar x⟩, ls, ?_, rfl, rfl, hd⟩
  simp only [Vmars.vmarDump, e]
  rfl

end Tomato
