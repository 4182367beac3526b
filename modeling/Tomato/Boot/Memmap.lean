import Tomato.Mem.Phys.Run

/-!
# The memory map and the early allocator

The memory map that the bootloader hands over, and the part of `boot/virt.c` that
allocates from it before the physical allocator is up: a bump pointer that goes
through the usable entries, and the hand-over of everything above it to
`phys_add_memory`.

`none` is a failed `ASSERT`.
-/

namespace Tomato

inductive MemmapType
  | usable
  | reserved
  | acpiReclaimable
  | acpiNvs
  | badMemory
  | bootloaderReclaimable
  | executableAndModules
  | framebuffer
  | reservedMapped
deriving DecidableEq, Repr

structure MemmapEntry where
  base : ℕ
  length : ℕ
  type : MemmapType
deriving DecidableEq, Repr

/-- `m_memmap_request.response->entries`. -/
abbrev Memmap := List MemmapEntry

/-- `m_early_alloc_top`, `m_early_alloc_size` and `m_early_alloc_page_count`. -/
structure EarlyAlloc where
  top : ℕ
  size : ℕ
  pageCount : ℕ

/-- The state of the boot code. The ranges of `clients` are those that were given to
`phys_add_memory`. -/
structure Boot where
  early : EarlyAlloc
  clients : Clients

namespace Memmap

/-- The entries are sorted by base and do not overlap, and each of them is a positive
number of whole pages. -/
structure Valid (entries : Memmap) : Prop where
  sorted : entries.Pairwise fun a b => a.base + a.length ≤ b.base
  base_dvd : ∀ e ∈ entries, PAGE_SIZE ∣ e.base
  length_dvd : ∀ e ∈ entries, PAGE_SIZE ∣ e.length
  pos : ∀ e ∈ entries, 0 < e.length

/-- The entries that the direct map covers. -/
def mapped (e : MemmapEntry) : Bool :=
  e.type == .usable || e.type == .bootloaderReclaimable

/-- The loop of `init_direct_map`, from the last entry down. -/
def topAddress (entries : Memmap) : ℕ :=
  match entries.reverse.find? mapped with
  | some e => e.base + e.length
  | none => 0

/-- The direct map is the one that `init_direct_map` sets up. -/
def HasDirectMap (entries : Memmap) (d : DirectMap) : Prop :=
  d.pageCount = entries.topAddress / PAGE_SIZE

/-- The page at the physical address is one of a usable entry. -/
def UsablePage (entries : Memmap) (phys : ℕ) : Prop :=
  PAGE_SIZE ∣ phys ∧
    ∃ e ∈ entries, e.type = .usable ∧ e.base ≤ phys ∧ phys + PAGE_SIZE ≤ e.base + e.length

/-- The number of pages of the usable entries. -/
def usablePageCount (entries : Memmap) : ℕ :=
  ((entries.filter (·.type == .usable)).map (·.length / PAGE_SIZE)).sum

end Memmap

namespace EarlyAlloc

/-- The rest of the loop of `early_alloc_find_next_entry`. -/
def earlyAllocFindNextEntry (e : EarlyAlloc) : Memmap → Option EarlyAlloc
  | [] => none
  | entry :: entries =>
    -- must be a usable entry
    if entry.type ≠ .usable then earlyAllocFindNextEntry e entries
    -- must be above the current top
    else if entry.base < e.top then earlyAllocFindNextEntry e entries
    else if entry.base % PAGE_SIZE ≠ 0 ∨ entry.length % PAGE_SIZE ≠ 0 then none
    else some { e with top := entry.base, size := entry.length }

end EarlyAlloc

namespace Boot

variable (d : DirectMap) (entries : Memmap)

def setMem (b : Boot) (m : Memory) : Boot :=
  { b with clients := { b.clients with phys := { b.clients.phys with mem := m } } }

def earlyPhysAllocPage (b : Boot) : Option (ℕ × Boot) :=
  (if b.early.size = 0 then b.early.earlyAllocFindNextEntry entries else some b.early).map fun e =>
    let ptr := d.physToDirect e.top
    let early := ⟨e.top + PAGE_SIZE, e.size - PAGE_SIZE, e.pageCount + 1⟩
    (ptr, { b with early := early }.setMem (b.clients.phys.mem.zero ptr PAGE_SIZE))

/-- That many calls of `early_phys_alloc_page`, and the pages they return. -/
def earlyPhysAllocPages : ℕ → Boot → Option (List ℕ × Boot)
  | 0, b => some ([], b)
  | n + 1, b => do
    let (ptr, b) ← earlyPhysAllocPage d entries b
    let (ptrs, b) ← earlyPhysAllocPages n b
    some (ptr :: ptrs, b)

/-- The rest of the loop of `early_phys_add_memory`. -/
def earlyAddEntries (top : ℕ) : Memmap → Clients → Option Clients
  | [], t => some t
  | entry :: entries, t =>
    if entry.type ≠ .usable then earlyAddEntries top entries t
    else
      let base := entry.base
      let end_ := base + entry.length
      if end_ < top then earlyAddEntries top entries t
      else
        let base := if base < top then top else base
        (t.exec d (.addMemory (d.physToDirect base) (d.physToDirect end_))).bind
          (earlyAddEntries top entries)

def earlyPhysAddMemory (b : Boot) : Option Boot :=
  -- the early allocations are final, and accounted as committed
  ((earlyAddEntries d b.early.top entries b.clients).bind fun t =>
    t.exec d (.addCommitted b.early.pageCount)).map fun t => { b with clients := t }

/-- Nothing was allocated and nothing is in the physical allocator. -/
def Initial (b : Boot) : Prop := b.early = ⟨0, 0, 0⟩ ∧ b.clients.Initial d

end Boot

end Tomato
