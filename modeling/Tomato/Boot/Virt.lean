import Tomato.Boot.HandOver
import Tomato.Mem.Virt.Calls

/-!
# The page table at boot

The part of `boot/virt.c` that fills the page table while its tables still come from the
early allocator. `none` is a failed `ASSERT`, the one of the early allocator included.
-/

namespace Tomato

namespace Boot

variable (d : DirectMap) (entries : Memmap) (pageTable : ℕ)

def mem (b : Boot) : Memory := b.clients.phys.mem

/-- A store to an entry. -/
def setEntry (b : Boot) (entry value : ℕ) : Boot := b.setMem (b.mem.store entry value)

def earlyVirtGetNextLevel (b : Boot) (entry : ℕ) : Option (ℕ × Boot) := do
  let b ← if b.mem entry &&& IA32_PG_P = 0 then do
      let (phys, b) ← b.earlyPhysAllocPage d entries
      some (b.setEntry entry (d.directToPhys phys ||| IA32_PG_P ||| IA32_PG_RW))
    else some b
  some (d.physToDirect (b.mem entry &&& PAGING_4K_ADDRESS_MASK), b)

/-- The loop of `early_virt_get_pte` from the level `i` down. -/
def earlyVirtWalk (virt : ℕ) : ℕ → ℕ → Boot → Option (ℕ × Boot)
  | 0, table, b => some (entryPtr table (pagingIndex virt 0), b)
  | i + 1, table, b => do
    let (table, b) ← b.earlyVirtGetNextLevel d entries (entryPtr table (pagingIndex virt (i + 1)))
    earlyVirtWalk virt i table b

def earlyVirtGetPte (b : Boot) (virt : ℕ) : Option (ℕ × Boot) :=
  earlyVirtWalk d entries virt (PAGE_TABLE_LEVELS - 1) pageTable b

/-- The leaf entry that `early_virt_map` installs. -/
def mappedEntry (phys flags : ℕ) : ℕ := phys ||| IA32_PG_P ||| IA32_PG_A ||| flags

/-- The body of the loop of `early_virt_map`, with the frame of the page. -/
def earlyVirtMapPage (flags addr : ℕ) : ℕ × Boot → Option (ℕ × Boot)
  | (phys, b) => do
    let (pte, b) ← b.earlyVirtGetPte d entries pageTable addr
    if b.mem pte ≠ 0 then none
    else some ((phys + PAGE_SIZE) % 2 ^ 64, b.setEntry pte (mappedEntry phys flags))

def earlyVirtMap (b : Boot) (virt phys numPages flags : ℕ) : Option Boot :=
  (forPages virt (earlyVirtMapPage d entries pageTable flags) numPages (phys, b)).map Prod.snd

/-- The flags of a page of the buddy bitmap. -/
def bitmapFlags : ℕ :=
  IA32_PG_P ||| IA32_PG_RW ||| IA32_PG_NX ||| IA32_PG_G ||| (IA32_PG_D ||| IA32_PG_A)

/-- The body of the inner loop of `early_create_buddy_bitmap`. -/
def earlyMapBitmapPage (b : Boot) (bitmapPtr : ℕ) : Option Boot := do
  let (pte, b) ← b.earlyVirtGetPte d entries pageTable bitmapPtr
  if b.mem pte &&& IA32_PG_P ≠ 0 then some b
  else do
    let (page, b) ← b.earlyPhysAllocPage d entries
    some (b.setEntry pte (d.directToPhys page ||| bitmapFlags))

end Boot

end Tomato
