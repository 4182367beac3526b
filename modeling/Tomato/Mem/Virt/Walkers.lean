import Tomato.Mem.Virt.Run

/-!
# Walks on many cores

Any number of cores look up addresses with `virt_get_pte` and make the tables that are missing.
The load of an entry, a call to the physical allocator and a compare and exchange are one step
each, and the other cores come in between. `none` is a failed assertion.

The events are what has happened so far, the last one first. The code does not record them.
-/

namespace Tomato

/-- The next step of a core. -/
inductive WalkPc
  | idle
  /-- the load of `virt_get_next_level` -/
  | load (virt level table : ℕ)
  /-- the call to `phys_alloc` -/
  | take (virt level table value : ℕ)
  /-- the compare and exchange -/
  | exchange (virt level table value page : ℕ)
  /-- the call to `phys_free`, with the value that somebody else has set -/
  | giveBack (virt level table value page : ℕ)

inductive WalkEvent
  | took (core page : ℕ)
  | linked (core entry page : ℕ)
  | lost (core page : ℕ)
  | returned (core page : ℕ)
  | finished (core virt : ℕ) (pte : Option ℕ)
deriving DecidableEq

/-- The entry that `virt_get_next_level` makes for a new table. -/
def newTableEntry (d : DirectMap) (phys : ℕ) (user : Bool) : ℕ :=
  let newEntry := d.directToPhys phys ||| IA32_PG_P
  let newEntry := newEntry ||| IA32_PG_RW
  if user then newEntry ||| IA32_PG_U else newEntry

/-- The cores and the memory, and the blocks that are handed out. -/
structure Walkers where
  clients : Clients
  pc : ℕ → WalkPc
  events : List WalkEvent

namespace Walkers

variable (d : DirectMap) (root : ℕ) (s : Walkers) (core : ℕ)

def mem : Memory := s.clients.phys.mem

@[simps]
def setPc (pc : WalkPc) : Walkers := { s with pc := Function.update s.pc core pc }

@[simps]
def setClients (t : Clients) : Walkers := { s with clients := t }

@[simps]
def log (e : WalkEvent) : Walkers := { s with events := e :: s.events }

/-- The call to `virt_get_pte` returns. -/
def finish (virt : ℕ) (pte : Option ℕ) : Walkers :=
  (s.setPc core .idle).log (.finished core virt pte)

/-- The call to `virt_get_next_level` returns, and the loop goes on. -/
def enter (virt level value : ℕ) : Option Walkers :=
  if value &&& IA32_PG_P = 0 then none
  else
    let table := d.physToDirect (value &&& PAGING_4K_ADDRESS_MASK)
    if level = 1 then some (s.finish core virt (some (entryPtr table (pagingIndex virt 0))))
    else some (s.setPc core (.load virt (level - 1) table))

/-- A core calls `virt_get_pte`. -/
def begin_ (virt : ℕ) : Walkers := s.setPc core (.load virt (PAGE_TABLE_LEVELS - 1) root)

/-- One step of a core. -/
def run : Option Walkers :=
  match s.pc core with
  | .idle => some s
  | .load virt level table =>
    let value := s.mem (entryPtr table (pagingIndex virt level))
    if value &&& IA32_PG_P = 0 then some (s.setPc core (.take virt level table value))
    else s.enter d core virt level value
  | .take virt level table value =>
    (s.clients.phys.physAlloc d PAGE_SIZE).map fun r =>
      let s := s.setClients (s.clients.handOut PAGE_SIZE r)
      match r.1 with
      | none => s.finish core virt none
      | some page => (s.setPc core (.exchange virt level table value page)).log (.took core page)
  | .exchange virt level table value page =>
    let entry := entryPtr table (pagingIndex virt level)
    if s.mem entry = value then
      let newEntry := newTableEntry d page (virtIsUserAddress virt)
      -- the page belongs to the page table from now on
      let t := { s.clients with
        phys := s.clients.phys.setEntry entry newEntry
        live := s.clients.live.erase (block page 6) }
      ((s.setClients t).log (.linked core entry page)).enter d core virt level newEntry
    else
      some ((s.setPc core (.giveBack virt level table (s.mem entry) page)).log (.lost core page))
  | .giveBack virt level _ value page =>
    (s.clients.phys.physFree d page PAGE_SIZE).bind fun p =>
      ((s.setClients (s.clients.takeBack page PAGE_SIZE p)).log (.returned core page)).enter d core
        virt level value

/-- All cores are idle, and the page table is one that the kernel can have. -/
def Initial (d : DirectMap) (entries : Memmap) (root : ℕ) (s : Walkers) : Prop :=
  (∃ st : VirtState, Transition.Reachable (VirtState.Initial d entries) (VirtState.Step d entries) st ∧
    st.handedOver = true ∧ st.pageTable = root ∧ st.boot.clients = s.clients) ∧
    (∀ core, s.pc core = .idle) ∧ s.events = []

/-- An idle core begins a walk, or a core makes its next step. -/
def Step (s s' : Walkers) : Prop :=
  ∃ core, (∃ virt, s.pc core = .idle ∧ s' = s.begin_ root core virt) ∨
    s.pc core ≠ .idle ∧ s.run d core = some s'

end Walkers

end Tomato
