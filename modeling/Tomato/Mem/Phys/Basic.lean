import Tomato.Lib.Hlist
import Tomato.Mem.Accounting

/-!
# The physical allocator

The buddy allocator of `mem/phys.c`, from 64 byte blocks (level 0) to 2 MiB blocks
(level 15). All of it works on pointers into the direct map. The free blocks of a
level are linked through a header that lives in the block itself (two link words
and a level byte), the heads of the lists are the words of `m_phys_buddy_levels`,
and one bit for every 64 bytes tells whether a free block starts there.

`none` is a failed `ASSERT`. A returned pointer is an `Option`, `none` being
`NULL`.
-/

namespace Tomato

def PAGE_SHIFT : ℕ := 12

def PAGE_SIZE : ℕ := 1 <<< PAGE_SHIFT

def PAGE_MASK : ℕ := (1 <<< PAGE_SHIFT) - 1

def PHYS_BUDDY_MAX_LEVEL : ℕ := 16

def PHYS_BUDDY_MIN_ORDER : ℕ := 6

def PHYS_BUDDY_MIN_SIZE : ℕ := 1 <<< PHYS_BUDDY_MIN_ORDER

def PHYS_BUDDY_MAX_SIZE : ℕ := 1 <<< (PHYS_BUDDY_MAX_LEVEL + PHYS_BUDDY_MIN_ORDER - 1)

/-- The level of a block that is exactly a page. -/
def PHYS_BUDDY_PAGE_LEVEL : ℕ := PAGE_SHIFT - PHYS_BUDDY_MIN_ORDER

/-- Where the direct map and the list heads are. The base of the direct map is
aligned to the largest block, so that flipping a bit of a pointer flips the same
bit of the physical address; the map ends more than one largest block before the
top of the address space, and the list heads are variables of the kernel image,
which is not part of the direct map. -/
structure DirectMap where
  base : ℕ
  pageCount : ℕ
  levels : ℕ
  base_pos : 0 < base
  base_aligned : 2 ^ 21 ∣ base
  top : base + pageCount * 4096 + 2 ^ 21 ≤ 2 ^ 64
  levels_outside : levels + 128 ≤ base ∨ base + pageCount * 4096 ≤ levels

namespace DirectMap

variable (d : DirectMap)

/-- `&m_phys_buddy_levels[level]`. -/
def head (level : ℕ) : ℕ := d.levels + 8 * level

def physToDirect (phys : ℕ) : ℕ := d.base + phys

def directToPhys (ptr : ℕ) : ℕ := ptr - d.base

/-- The pointers into the direct map. -/
def range : Set ℕ := Set.Ico d.base (d.base + d.pageCount * 4096)

end DirectMap

structure Phys where
  mem : Memory
  /-- `g_buddy_bitmap_mapping.base`. -/
  bitmap : ℕ → BitVec 8
  acct : Accounting

/-- The number of leading zero bits of a non-zero 64-bit value. -/
def clzll (x : ℕ) : ℕ := 63 - Nat.log2 x

def getLevelBySize (size : ℕ) : Option ℕ :=
  if size > PHYS_BUDDY_MAX_SIZE then none
  else
    let size := if size < PHYS_BUDDY_MIN_SIZE then PHYS_BUDDY_MIN_SIZE else size
    -- the order of the size rounded up to the next power of two
    let order := 64 - clzll (size - 1)
    some (order - PHYS_BUDDY_MIN_ORDER)

/-- The level of a block of pages that matches the size exactly. -/
def getPageLevelBySize (size : ℕ) : Option ℕ :=
  match getLevelBySize size with
  | none => none
  | some level =>
    if level < PHYS_BUDDY_PAGE_LEVEL ∨ size ≠ 1 <<< (level + PHYS_BUDDY_MIN_ORDER) then none
    else some level

/-- The number of pages in a block of the page level or above. -/
def getPageCountByLevel (level : ℕ) : ℕ := 1 <<< (level - PHYS_BUDDY_PAGE_LEVEL)

/-- The size in bytes of a block of the level. -/
def blockSize (level : ℕ) : ℕ := 1 <<< (level + PHYS_BUDDY_MIN_ORDER)

/-- `((buddy_free_page_t*)ptr)->level`, a byte. -/
def pageLevel (m : Memory) (ptr : ℕ) : ℕ := m (ptr + 16) % 256

def setPageLevel (m : Memory) (ptr level : ℕ) : Memory :=
  m.store (ptr + 16) (m (ptr + 16) / 256 * 256 + level % 256)

/-- `*page = (buddy_free_page_t){}`. -/
def clearPageHeader (m : Memory) (ptr : ℕ) : Memory := m.zero ptr 24

namespace Phys

variable (d : DirectMap) (s : Phys)

def buddyIsBlockFree (ptr : ℕ) : Bool :=
  let addr := d.directToPhys ptr >>> PHYS_BUDDY_MIN_ORDER
  let index := addr / 8
  let shift := addr % 8
  (s.bitmap index >>> shift) &&& 1#8 == 1#8

def buddySetBlockAllocated (ptr : ℕ) : Phys :=
  let addr := d.directToPhys ptr >>> PHYS_BUDDY_MIN_ORDER
  let index := addr / 8
  let shift := addr % 8
  { s with bitmap := fun i =>
      if i = index then s.bitmap index &&& ~~~(1#8 <<< shift) else s.bitmap i }

def buddySetBlockFree (ptr : ℕ) : Phys :=
  let addr := d.directToPhys ptr >>> PHYS_BUDDY_MIN_ORDER
  let index := addr / 8
  let shift := addr % 8
  { s with bitmap := fun i =>
      if i = index then s.bitmap index ||| (1#8 <<< shift) else s.bitmap i }

/-- The first loop of `phys_alloc_internal`: the first level from `level` on, of
the `n` that are left, whose list is not empty. -/
def closestLevel (m : Memory) : ℕ → ℕ → ℕ
  | 0, level => level
  | n + 1, level => if hlistEmpty m (d.head level) then closestLevel m n (level + 1) else level

/-- The commit that `phys_alloc_internal` makes before it takes the block: all
the pages of a block of pages, one page for a piece that has to split a page, and
nothing for a piece of a page that is already split. -/
def commitPages (a : Accounting) (level blockAtLevel : ℕ) (reserved : Bool) :
    Option (Bool × Accounting) :=
  if level ≥ PHYS_BUDDY_PAGE_LEVEL then
    let pageCount := getPageCountByLevel level
    if reserved then (a.memAcctCommitReserved pageCount).map fun a => (true, a)
    else some (a.memAcctCommit pageCount)
  else if blockAtLevel ≥ PHYS_BUDDY_PAGE_LEVEL then some (a.memAcctCommit 1)
  else some (true, a)

/-- The split loop of `phys_alloc_internal`, with `k` halvings left before
`level` is reached. The upper half of every halving goes to its freelist. -/
def splitBlock (level block : ℕ) : ℕ → Phys → Phys
  | 0, s => s
  | k + 1, s =>
    let size := blockSize (level + k + 1)
    let blockAtLevel := level + k
    let upper := block + size / 2
    let m := setPageLevel s.mem upper blockAtLevel
    let m := hlistAdd m (d.head blockAtLevel) upper
    splitBlock level block k (buddySetBlockFree d { s with mem := m } upper)

/-- The part of `phys_alloc_internal` after the commit: unlink the first block of
the list, wipe its header, and split it down to `level`. -/
def takeBlock (level blockAtLevel : ℕ) : Option (ℕ × Phys) :=
  let page := s.mem (d.head blockAtLevel)
  if pageLevel s.mem page ≠ blockAtLevel then none
  else
    let m := hlistDel s.mem page
    let m := clearPageHeader m page
    let s := splitBlock d level page (blockAtLevel - level) { s with mem := m }
    some (page, buddySetBlockAllocated d s page)

def physAllocInternal (level : ℕ) (reserved : Bool) : Option (Option ℕ × Phys) :=
  let blockAtLevel := closestLevel d s.mem (PHYS_BUDDY_MAX_LEVEL - level) level
  if blockAtLevel = PHYS_BUDDY_MAX_LEVEL then
    -- a reserved page always has a free page waiting for it
    if reserved ∧ level = PHYS_BUDDY_PAGE_LEVEL then none else some (none, s)
  else
    (commitPages s.acct level blockAtLevel reserved).bind fun
      | (false, _) => some (none, s)
      | (true, a) =>
        (takeBlock d { s with acct := a } level blockAtLevel).map fun (page, s) => (some page, s)

def physAlloc (size : ℕ) : Option (Option ℕ × Phys) :=
  match getLevelBySize size with
  | none => some (none, s)
  | some level => physAllocInternal d s level false

def physAllocReserved (size : ℕ) : Option (Option ℕ × Phys) :=
  (getPageLevelBySize size).bind fun level => physAllocInternal d s level true

/-- The merge loop of `phys_free_internal`, with `n` levels left below the top
one. The result is the block that is left and its level. -/
def mergeBlock : ℕ → ℕ → ℕ → Phys → ℕ × ℕ × Phys
  | 0, ptr, level, s => (ptr, level, s)
  | n + 1, ptr, level, s =>
    let neighbor := ptr ^^^ blockSize level
    if !buddyIsBlockFree d s neighbor then (ptr, level, s)
    else if pageLevel s.mem neighbor ≠ level then (ptr, level, s)
    else
      let m := hlistDel s.mem neighbor
      let m := clearPageHeader m neighbor
      mergeBlock n (if ptr > neighbor then neighbor else ptr) (level + 1) { s with mem := m }

/-- Returns the level of the block after merging it. -/
def physFreeInternal (ptr level : ℕ) (checkAllocated : Bool) : Option (ℕ × Phys) :=
  if ptr % blockSize level ≠ 0 then none
  else if checkAllocated ∧ buddyIsBlockFree d s ptr then none
  else
    let s := if checkAllocated then buddySetBlockFree d s ptr else s
    let (block, level, s) := mergeBlock d (PHYS_BUDDY_MAX_LEVEL - 1 - level) ptr level s
    let m := setPageLevel s.mem block level
    let m := hlistAdd m (d.head level) block
    some (level, buddySetBlockFree d { s with mem := m } block)

def uncommitPages (a : Accounting) (level mergedLevel : ℕ) (reserved : Bool) :
    Option Accounting :=
  if level ≥ PHYS_BUDDY_PAGE_LEVEL then
    let pageCount := getPageCountByLevel level
    if reserved then a.memAcctUncommitToReserved pageCount else a.memAcctUncommit pageCount
  else if mergedLevel ≥ PHYS_BUDDY_PAGE_LEVEL then a.memAcctUncommit 1
  else some a

def physFreeBlock (ptr level : ℕ) (reserved : Bool) : Option Phys := do
  -- zero it before freeing
  let m := s.mem.zero ptr (blockSize level)
  let (mergedLevel, s) ← physFreeInternal d { s with mem := m } ptr level true
  let a ← uncommitPages s.acct level mergedLevel reserved
  some { s with acct := a }

def physFree (ptr size : ℕ) : Option Phys :=
  if ptr = 0 then some s
  else (getLevelBySize size).bind fun level => physFreeBlock d s ptr level false

def physFreeReserved (ptr size : ℕ) : Option Phys :=
  if ptr = 0 then some s
  else (getPageLevelBySize size).bind fun level => physFreeBlock d s ptr level true

/-- The loop of `get_best_level_for_block`, with the levels below `n` left to try.
The sum of two pointers wraps around at 64 bits. -/
def bestLevelBelow (addr addrEnd : ℕ) : ℕ → Option ℕ
  | 0 => none
  | i + 1 =>
    let size := blockSize i
    if (addr + size) % 2 ^ 64 > addrEnd then bestLevelBelow addr addrEnd i
    else if addr &&& (size - 1) = 0 then some i
    else bestLevelBelow addr addrEnd i

def getBestLevelForBlock (addr addrEnd : ℕ) : Option ℕ :=
  bestLevelBelow addr addrEnd PHYS_BUDDY_MAX_LEVEL

/-- The loop of `phys_add_memory`. -/
def addBlocks (start end_ : ℕ) (s : Phys) : Option Phys :=
  if _h : start < end_ then
    (getBestLevelForBlock start end_).bind fun level =>
      (physFreeInternal d s start level false).bind fun r =>
        addBlocks (start + blockSize level) end_ r.2
  else some s
termination_by end_ - start
decreasing_by
  have : 0 < 1 <<< (level + PHYS_BUDDY_MIN_ORDER) := by simp [Nat.one_shiftLeft]
  unfold blockSize
  omega

def physAddMemory (start end_ : ℕ) : Option Phys :=
  if start &&& PAGE_MASK ≠ 0 ∨ end_ &&& PAGE_MASK ≠ 0 then none
  else
    let pageCount := (end_ - start) / PAGE_SIZE
    -- zero the entire region
    let m := s.mem.zero start (end_ - start)
    -- only once the pages are in the allocator can they be handed out
    (addBlocks d start end_ { s with mem := m }).map fun s =>
      { s with acct := s.acct.memAcctAddTotal pageCount }

end Phys

end Tomato
