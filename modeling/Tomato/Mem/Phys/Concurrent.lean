import Tomato.Mem.Phys.Run

/-!
# The allocator on many cores

Every core makes one call after the other, and a call is cut into the steps that
other cores can come in between: each atomic operation on a counter is one step,
and so is each critical section of the buddy lock, except that the commit inside
the section of `phys_alloc_internal` is made of the steps of the commit. A core that
needs the lock waits until it is free. A weak compare and exchange may fail for no
reason.

`none` is a failed assertion, an underflow of a counter among them.
-/

namespace Tomato

open Blocks

/-- What `mem_acct_take_available` is part of. -/
inductive TakeFor
  | reserve
  | commit (level blockAtLevel : ℕ)
deriving DecidableEq, Repr

/-- The next step of a core. -/
inductive CorePc
  | idle
  /-- the load of `mem_acct_take_available` -/
  | load (n : ℕ) (use : TakeFor)
  /-- the test and the compare and exchange of `mem_acct_take_available` -/
  | exchange (n available : ℕ) (use : TakeFor)
  | reserveAdd (n : ℕ)
  | unreserveSub (n : ℕ)
  | unreserveAdd (n : ℕ)
  /-- the lock and the search of `phys_alloc_internal` -/
  | allocLock (level : ℕ) (reserved : Bool)
  | commitReservedSub (level blockAtLevel : ℕ)
  | commitReservedAdd (level blockAtLevel : ℕ)
  | commitAdd (level blockAtLevel n : ℕ)
  /-- the rest of the critical section of `phys_alloc_internal` -/
  | take (level blockAtLevel n : ℕ)
  /-- the `memset` of `phys_free_block` -/
  | freeZero (ptr level : ℕ) (reserved : Bool)
  /-- the critical section of `phys_free_internal` -/
  | freeLock (ptr level : ℕ) (reserved : Bool)
  | uncommitSub (n : ℕ) (reserved : Bool)
  | uncommitAdd (n : ℕ) (reserved : Bool)
  /-- the `memset` of `phys_add_memory` -/
  | addZero (start end_ : ℕ)
  /-- the loop of `phys_add_memory` -/
  | addLoop (start end_ pageCount : ℕ)
  | addTotal (n : ℕ)
  | addAvailable (n : ℕ)
  | addCommittedTotal (n : ℕ)
  | addCommitted (n : ℕ)
deriving DecidableEq, Repr

/-- The allocator, what the cores are doing, and what the clients know: the last
call of a core and the pointer it returned, the pages a core has reserved, the
blocks that were returned and not freed, the ranges that were handed to
`phys_add_memory`, and the pages accounted before. -/
structure Cores where
  cpuCount : ℕ
  phys : Phys
  lock : Option ℕ
  pc : ℕ → CorePc
  call : ℕ → Option Call
  result : ℕ → Option ℕ
  held : ℕ → ℕ
  live : List Block
  ranges : List (ℕ × ℕ)
  early : ℕ

namespace Cores

variable (d : DirectMap) (s : Cores) (c : ℕ)

@[simps]
def setPc (pc : CorePc) : Cores := { s with pc := Function.update s.pc c pc }

@[simps]
def setAcct (a : Accounting) : Cores := { s with phys := { s.phys with acct := a } }

@[simps]
def setHeld (n : ℕ) : Cores := { s with held := Function.update s.held c n }

@[simps]
def setResult (r : Option ℕ) : Cores := { s with result := Function.update s.result c r }

/-- The call starts, up to its first atomic operation. -/
def begin_ (call : Call) : Option Cores :=
  let s := { s with call := Function.update s.call c (some call) }.setResult c none
  match call with
  | .addMemory start end_ =>
    if start &&& PAGE_MASK ≠ 0 ∨ end_ &&& PAGE_MASK ≠ 0 then none
    else some ({ s with ranges := (start, end_) :: s.ranges }.setPc c (.addZero start end_))
  | .addCommitted n => some (s.setPc c (.addCommittedTotal n))
  | .alloc size => match getLevelBySize size with
    | none => some s
    | some level => some (s.setPc c (.allocLock level false))
  | .allocReserved size =>
    (getPageLevelBySize size).map fun level => s.setPc c (.allocLock level true)
  | .free ptr size =>
    if ptr = 0 then some s
    else (getLevelBySize size).map fun level =>
      { s with live := s.live.erase (block ptr level) }.setPc c (.freeZero ptr level false)
  | .freeReserved ptr size =>
    if ptr = 0 then some s
    else (getPageLevelBySize size).map fun level =>
      { s with live := s.live.erase (block ptr level) }.setPc c (.freeZero ptr level true)
  | .reserve n => some (s.setPc c (.load n .reserve))
  | .unreserve n => some (s.setPc c (.unreserveSub n))
  | .write b content => some { s with phys := { s.phys with
      mem := fun a => if b.addr ≤ a ∧ a < b.addr + 2 ^ b.order then content a else s.phys.mem a } }

/-- The call returns the pointer. -/
def finish (r : Option ℕ) : Cores := (s.setResult c r).setPc c .idle

/-- The test of the loop in `mem_acct_take_available` and the compare and exchange. -/
def takeAvailable (n available : ℕ) (use : TakeFor) (spurious : Bool) : Cores :=
  let a := s.phys.acct
  if available < n then
    match use with
    | .reserve => s.finish c none
    | .commit _ _ => { s with lock := none }.finish c none
  else if a.available = available ∧ spurious = false then
    let s := s.setAcct { a with available := available - n }
    match use with
    | .reserve => s.setPc c (.reserveAdd n)
    | .commit level blockAtLevel => s.setPc c (.commitAdd level blockAtLevel n)
  else s.setPc c (.exchange n a.available use)

/-- The search of `phys_alloc_internal`, and what comes next. -/
def search (level : ℕ) (reserved : Bool) : Option Cores :=
  let blockAtLevel :=
    Phys.closestLevel d s.phys.mem (PHYS_BUDDY_MAX_LEVEL - level) level
  let s := { s with lock := some c }
  if blockAtLevel = PHYS_BUDDY_MAX_LEVEL then
    if reserved ∧ level = PHYS_BUDDY_PAGE_LEVEL then none
    else some ({ s with lock := none }.finish c none)
  else if level ≥ PHYS_BUDDY_PAGE_LEVEL then
    if reserved then some (s.setPc c (.commitReservedSub level blockAtLevel))
    else some (s.setPc c (.load (getPageCountByLevel level) (.commit level blockAtLevel)))
  else if blockAtLevel ≥ PHYS_BUDDY_PAGE_LEVEL then
    some (s.setPc c (.load 1 (.commit level blockAtLevel)))
  else some (s.setPc c (.take level blockAtLevel 0))

/-- The critical section of `phys_free_internal`, and what there is to uncommit. -/
def freeBlock (ptr level : ℕ) (reserved : Bool) : Option Cores :=
  (s.phys.physFreeInternal d ptr level true).map fun (mergedLevel, phys) =>
    let s := { s with phys := phys }
    if level ≥ PHYS_BUDDY_PAGE_LEVEL then
      s.setPc c (.uncommitSub (getPageCountByLevel level) reserved)
    else if mergedLevel ≥ PHYS_BUDDY_PAGE_LEVEL then s.setPc c (.uncommitSub 1 false)
    else s.finish c none

/-- One turn of the loop of `phys_add_memory`. -/
def addBlock (start end_ pageCount : ℕ) : Option Cores :=
  if start < end_ then
    (Phys.getBestLevelForBlock start end_).bind fun level =>
      (s.phys.physFreeInternal d start level false).map fun (_, phys) =>
        { s with phys := phys }.setPc c (.addLoop (start + blockSize level) end_ pageCount)
  else some (s.setPc c (.addTotal pageCount))

/-- The next step of the core. -/
def advance (spurious : Bool) : Option Cores :=
  let a := s.phys.acct
  match s.pc c with
  | .idle => none
  | .load n use => some (s.setPc c (.exchange n a.available use))
  | .exchange n available use => some (s.takeAvailable c n available use spurious)
  | .reserveAdd n => some (((s.setAcct { a with reserved := a.reserved + n }).setHeld c
      (s.held c + n)).finish c none)
  | .unreserveSub n => (Accounting.checkedAtomicSub a.reserved n).map fun reserved =>
      ((s.setAcct { a with reserved := reserved }).setHeld c (s.held c - n)).setPc c
        (.unreserveAdd n)
  | .unreserveAdd n => some ((s.setAcct { a with available := a.available + n }).finish c none)
  | .allocLock level reserved => s.search d c level reserved
  | .commitReservedSub level blockAtLevel =>
      let n := getPageCountByLevel level
      (Accounting.checkedAtomicSub a.reserved n).map fun reserved =>
        ((s.setAcct { a with reserved := reserved }).setHeld c (s.held c - n)).setPc c
          (.commitReservedAdd level blockAtLevel)
  | .commitReservedAdd level blockAtLevel =>
      let n := getPageCountByLevel level
      some ((s.setAcct { a with committed := a.committed + n }).setPc c
        (.take level blockAtLevel n))
  | .commitAdd level blockAtLevel n =>
      some ((s.setAcct { a with committed := a.committed + n }).setPc c
        (.take level blockAtLevel n))
  | .take level blockAtLevel _ =>
      (s.phys.takeBlock d level blockAtLevel).map fun (p, phys) =>
        { s with phys := phys, lock := none, live := block p level :: s.live }.finish c (some p)
  | .freeZero ptr level reserved => some ({ s with phys := { s.phys with
      mem := s.phys.mem.zero ptr (blockSize level) } }.setPc c (.freeLock ptr level reserved))
  | .freeLock ptr level reserved => s.freeBlock d c ptr level reserved
  | .uncommitSub n reserved => (Accounting.checkedAtomicSub a.committed n).map fun committed =>
      (s.setAcct { a with committed := committed }).setPc c (.uncommitAdd n reserved)
  | .uncommitAdd n reserved =>
      if reserved then some (((s.setAcct { a with reserved := a.reserved + n }).setHeld c
        (s.held c + n)).finish c none)
      else some ((s.setAcct { a with available := a.available + n }).finish c none)
  | .addZero start end_ => some ({ s with phys := { s.phys with
      mem := s.phys.mem.zero start (end_ - start) } }.setPc c
        (.addLoop start end_ ((end_ - start) / PAGE_SIZE)))
  | .addLoop start end_ pageCount => s.addBlock d c start end_ pageCount
  | .addTotal n => some ((s.setAcct { a with total := a.total + n }).setPc c (.addAvailable n))
  | .addAvailable n => some ((s.setAcct { a with available := a.available + n }).finish c none)
  | .addCommittedTotal n =>
      some ((s.setAcct { a with total := a.total + n }).setPc c (.addCommitted n))
  | .addCommitted n => some ({ s.setAcct { a with committed := a.committed + n } with
      early := s.early + n }.finish c none)

/-- A core begins a call, or goes on with the one it is in. -/
inductive Act
  | begin_ (call : Call)
  | advance (spurious : Bool)

def exec : Act → Option Cores
  | .begin_ call => s.begin_ c call
  | .advance spurious => s.advance d c spurious

/-- The core needs the lock for its next step. The loop of `phys_add_memory` takes it
once for every block. -/
def needsLock : CorePc → Bool
  | .allocLock _ _ | .freeLock _ _ _ => true
  | .addLoop start end_ _ => decide (start < end_)
  | _ => false

/-- The addresses that were handed to `phys_add_memory`. -/
def added : Set ℕ := {a | ∃ r ∈ s.ranges, a ∈ Set.Ico r.1 r.2}

/-- What a core promises when it makes the call: it frees blocks that were returned and
that no one has freed, with a size of their level, and it gives back or allocates from
pages that it has reserved. -/
def ValidCall : Call → Prop
  | .addMemory start end_ => 4096 ∣ start ∧ 4096 ∣ end_ ∧ start ≤ end_ ∧
      d.base ≤ start ∧ end_ ≤ d.base + d.pageCount * 4096 ∧
      Disjoint (Set.Ico start end_) s.added
  | .allocReserved size =>
      ∃ l, getPageLevelBySize size = some l ∧ 2 ^ (l - 6) ≤ s.held c
  | .free ptr size =>
      ptr = 0 ∨ ∃ l, getLevelBySize size = some l ∧ block ptr l ∈ s.live
  | .freeReserved ptr size =>
      ptr = 0 ∨ ∃ l, getPageLevelBySize size = some l ∧ block ptr l ∈ s.live
  | .unreserve n => n ≤ s.held c
  | .write b _ => b ∈ s.live
  | .addCommitted _ | .alloc _ | .reserve _ => True

/-- The step can be taken: the core is between two calls, or in one and not waiting
for the lock. -/
def Valid : Act → Prop
  | .begin_ call => s.pc c = .idle ∧ s.ValidCall d c call
  | .advance _ => s.pc c ≠ .idle ∧ (needsLock (s.pc c) = true → s.lock = none)

/-- No core has made a call yet. -/
def Initial (n : ℕ) (s : Cores) : Prop :=
  (∀ l < 16, s.phys.mem (d.head l) = 0) ∧ (∀ i, s.phys.bitmap i = 0) ∧
    s.phys.acct = ⟨0, 0, 0, 0⟩ ∧ s.cpuCount = n ∧ s.lock = none ∧ (∀ c, s.pc c = .idle) ∧
    (∀ c, s.call c = none) ∧ (∀ c, s.held c = 0) ∧ s.live = [] ∧ s.ranges = [] ∧ s.early = 0

def Step (s s' : Cores) : Prop :=
  ∃ c < s.cpuCount, ∃ a, s.Valid d c a ∧ s.exec d c a = some s'

end Cores

end Tomato
