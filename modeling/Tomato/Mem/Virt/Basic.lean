import Tomato.Mem.Phys.Basic

/-!
# The page table

The page table of `mem/virt.c`: four levels of tables of 512 entries, each table a page of
the physical allocator and each entry a word of memory. The tables are made on the way to
a leaf entry. All pointers to tables and entries are into the direct map.

`none` is a failed `ASSERT`. A returned pointer is an `Option`, `none` being `nullptr`.
-/

namespace Tomato

def IA32_PG_P : ℕ := 1 <<< 0

def IA32_PG_RW : ℕ := 1 <<< 1

def IA32_PG_U : ℕ := 1 <<< 2

def IA32_PG_A : ℕ := 1 <<< 5

def IA32_PG_D : ℕ := 1 <<< 6

def IA32_PG_G : ℕ := 1 <<< 8

def IA32_PG_NX : ℕ := 1 <<< 63

def PAGING_4K_ADDRESS_MASK : ℕ := 0x000FFFFFFFFFF000

def PAGING_INDEX_BITS : ℕ := 9

def PAGING_INDEX_MASK : ℕ := (1 <<< PAGING_INDEX_BITS) - 1

def SIZE_4GB : ℕ := 4 * 1024 * 1024 * 1024

def SIZE_128TB : ℕ := 128 * 1024 * 1024 * 1024 * 1024

/-- `g_page_table_levels`, as `init_kernel_region` sets it. -/
def PAGE_TABLE_LEVELS : ℕ := 4

/-- `g_kernel_region.base`. -/
def KERNEL_REGION_BASE : ℕ := 0xFFFF800000000000

/-- `g_user_region.base`. -/
def USER_REGION_BASE : ℕ := SIZE_4GB

/-- `g_user_region.page_count`. -/
def USER_REGION_PAGE_COUNT : ℕ := (SIZE_128TB - SIZE_4GB - PAGE_SIZE) / PAGE_SIZE

/-- `vmar_end`, the last byte. -/
def vmarEnd (base pageCount : ℕ) : ℕ := base + (pageCount * PAGE_SIZE - 1)

def virtIsUserAddress (addr : ℕ) : Bool := addr ≤ vmarEnd USER_REGION_BASE USER_REGION_PAGE_COUNT

/-- The index of the address in a table of the level `i`. -/
def pagingIndex (virt i : ℕ) : ℕ :=
  (virt >>> (PAGING_INDEX_BITS * i + PAGE_SHIFT)) &&& PAGING_INDEX_MASK

/-- `&table[index]`. -/
def entryPtr (table index : ℕ) : ℕ := table + 8 * index

/-- The address of the page `i` of a range. -/
def pageAddr (base i : ℕ) : ℕ := (base + i * PAGE_SIZE) % 2 ^ 64

/-- A loop over the first `n` pages of a range. -/
def forPages {σ : Type*} (base : ℕ) (f : ℕ → σ → Option σ) : ℕ → σ → Option σ
  | 0, s => some s
  | n + 1, s => (forPages base f n s).bind (f (pageAddr base n))

namespace Phys

variable (d : DirectMap) (pageTable : ℕ) (s : Phys)

/-- A store to an entry. -/
def setEntry (entry value : ℕ) : Phys := { s with mem := s.mem.store entry value }

def virtGetNextLevel (entry : ℕ) (alloc user : Bool) : Option (Option ℕ × Phys) :=
  let value := s.mem entry
  if value &&& IA32_PG_P = 0 then
    if !alloc then none
    else do
      let (phys, s) ← physAlloc d s PAGE_SIZE
      match phys with
      | none => some (none, s)
      | some phys =>
        let newEntry := d.directToPhys phys ||| IA32_PG_P
        let newEntry := newEntry ||| IA32_PG_RW
        let newEntry := if user then newEntry ||| IA32_PG_U else newEntry
        -- if it fails then someone else set the entry before us, so use their entry
        let (value, s) ← if s.mem entry = value then some (newEntry, s.setEntry entry newEntry)
          else (physFree d s phys PAGE_SIZE).map fun s' => (s.mem entry, s')
        if value &&& IA32_PG_P = 0 then none
        else some (some (d.physToDirect (value &&& PAGING_4K_ADDRESS_MASK)), s)
  else some (some (d.physToDirect (value &&& PAGING_4K_ADDRESS_MASK)), s)

/-- The loop of `virt_get_pte` from the level `i` down. -/
def virtWalk (virt : ℕ) (alloc user : Bool) : ℕ → ℕ → Phys → Option (Option ℕ × Phys)
  | 0, table, s => some (some (entryPtr table (pagingIndex virt 0)), s)
  | i + 1, table, s => do
    let pte := entryPtr table (pagingIndex virt (i + 1))
    let (table, s) ← virtGetNextLevel d s pte alloc user
    match table with
    | none => some (none, s)
    | some table => virtWalk virt alloc user i table s

def virtGetPte (virt : ℕ) (alloc : Bool) : Option (Option ℕ × Phys) :=
  virtWalk d virt alloc (virtIsUserAddress virt) (PAGE_TABLE_LEVELS - 1) pageTable s

/-- `virt_get_pte` where the tables must be there. -/
def virtFindPte (virt : ℕ) : Option (ℕ × Phys) :=
  (virtGetPte d pageTable s virt false).bind fun
    | (some pte, s) => some (pte, s)
    | (none, _) => none

def virtMakeGlobal (base pageCount : ℕ) : Option Phys :=
  forPages base (fun addr s => do
    let (pte, s) ← virtFindPte d pageTable s addr
    let value := s.mem pte
    if value &&& IA32_PG_P ≠ 0 then some (s.setEntry pte (value ||| IA32_PG_G)) else some s)
    pageCount s

/-- The loop of `virt_reserve_page_tables`, whose value is whether it went through. -/
def virtReserveLoop (base pageCount : ℕ) : Option (Bool × Phys) :=
  forPages base (fun addr (ok, s) =>
    if ok then (virtGetPte d pageTable s addr true).map fun (pte, s) => (pte.isSome, s)
    else some (ok, s))
    pageCount (true, s)

def virtReservePageTables (base pageCount : ℕ) : Option (Except TomatoErr Unit × Phys) :=
  match s.acct.memAcctReserve pageCount with
  | (.error e, a) => some (.error e, { s with acct := a })
  | (.ok (), a) => do
    let (ok, s) ← virtReserveLoop d pageTable { s with acct := a } base pageCount
    if ok then some (.ok (), s)
    else
      let a ← s.acct.memAcctUnreserve pageCount
      some (.error .outOfResources, { s with acct := a })

/-- The leaf entry of a page that `virt_populate` installs. -/
def populatedEntry (phys : ℕ) (globalPage user : Bool) : ℕ :=
  let entry := phys ||| IA32_PG_P ||| IA32_PG_A
  let entry := entry ||| (IA32_PG_RW ||| IA32_PG_D)
  let entry := entry ||| IA32_PG_NX
  let entry := if globalPage then entry ||| IA32_PG_G else entry
  if user then entry ||| IA32_PG_U else entry

def virtPopulate (base pageCount : ℕ) (globalPage : Bool) : Option Phys :=
  let user := virtIsUserAddress base
  forPages base (fun addr s => do
    let (pte, s) ← virtFindPte d pageTable s addr
    -- ignore an entry that is already populated
    let value := s.mem pte
    if value &&& IA32_PG_P ≠ 0 then some s
    else do
      let (phys, s) ← physAllocReserved d s PAGE_SIZE
      let phys ← phys
      some (s.setEntry pte (populatedEntry (d.directToPhys phys) globalPage user)))
    pageCount s

/-- The first loop of `virt_free`: it leaves only the address in every entry that is not
empty, and counts the empty ones. -/
def virtInvalidate (base pageCount : ℕ) : Option (ℕ × Phys) :=
  forPages base (fun addr (earlyUnreserve, s) => do
    let (pte, s) ← virtFindPte d pageTable s addr
    let value := s.mem pte
    if value &&& IA32_PG_G ≠ 0 then none
    else if value ≠ 0 then
      some (earlyUnreserve, s.setEntry pte (value &&& PAGING_4K_ADDRESS_MASK))
    else some (earlyUnreserve + 1, s))
    pageCount (0, s)

/-- The second loop of `virt_free`. -/
def virtRelease (base pageCount : ℕ) : Option Phys :=
  forPages base (fun addr s => do
    let (pte, s) ← virtFindPte d pageTable s addr
    let value := s.mem pte
    if value ≠ 0 then
      let address := value &&& PAGING_4K_ADDRESS_MASK
      if address ≠ value then none
      else (physFree d s (d.physToDirect address) PAGE_SIZE).map fun s => s.setEntry pte 0
    else some s)
    pageCount s

def virtFree (base pageCount : ℕ) : Option Phys := do
  let (earlyUnreserve, s) ← virtInvalidate d pageTable s base pageCount
  let a ← s.acct.memAcctUnreserve earlyUnreserve
  virtRelease d pageTable { s with acct := a } base pageCount

end Phys

end Tomato
