import Tomato.Mem.Alloc.Run
import Tomato.Mem.Vmar.Find
import Tomato.Mem.Vmar.Link

/-!
# The calls on VMARs

The functions of `mem/vmar.c` that allocate, map and unmap, and the page fault handler. The
objects come from the slab allocator of `vmar_t`, and the pages of a mapping from the page
table and the physical allocator below it.

`none` is a failed `ASSERT`, or a lock that somebody else holds. An object that is freed is
wiped, and so is the memory that becomes a new slab, so that a new object is zero.
-/

namespace Tomato

open RbTree

def IA32_PF_EC_PROT : ℕ := 2 ^ 0
def IA32_PF_EC_WRITE : ℕ := 2 ^ 1
def IA32_PF_EC_USER : ℕ := 2 ^ 2
def IA32_PF_EC_INSTR : ℕ := 2 ^ 4

/-- What the kernel is built for: the memory, the allocator of `vmar_t`, and the addresses of
`g_kernel_region` and `g_user_region`, which are in the data of the kernel. The frame at zero
is never usable memory. -/
structure Kernel where
  d : DirectMap
  entries : Memmap
  alloc : MemAlloc
  vmarType : CType
  kernelRegion : ℕ
  userRegion : ℕ
  valid : entries.Valid
  hasDirectMap : entries.HasDirectMap d
  kernel_le : KERNEL_REGION_BASE ≤ d.base
  usable_pos : ∀ u ∈ entries, u.type = .usable → 0 < u.base
  alloc_ok : alloc.Ok d
  defineAlloc : vmarType.DefineAlloc
  regions_ne : kernelRegion ≠ userRegion
  kernelRegion_outside : kernelRegion ∉ d.range
  userRegion_outside : userRegion ∉ d.range

namespace Vmars

variable (v : Vmars)

/-- All the fields of an object are zero. -/
def wipe (vmar : ℕ) : Vmars where
  refCount := Function.update v.refCount vmar 0
  base := Function.update v.base vmar 0
  pageCount := Function.update v.pageCount vmar 0
  parent := Function.update v.parent vmar none
  gap := Function.update v.gap vmar 0
  maxGap := Function.update v.maxGap vmar 0
  kind := Function.update v.kind vmar .region
  unmapped := Function.update v.unmapped vmar false
  locked := Function.update v.locked vmar false
  prev := Function.update v.prev vmar none
  next := Function.update v.next vmar none
  children := Function.update v.children vmar .nil
  leftmost := Function.update v.leftmost vmar none
  pageTableLock := Function.update v.pageTableLock vmar false

/-- The fields that `vmar_allocate` and `vmar_map` set first. -/
def initVmar (vmar : ℕ) (kind : VmarKind) : Vmars :=
  { v with
    refCount := Function.update v.refCount vmar 2
    kind := Function.update v.kind vmar kind }

/-- `RB_ROOT_LINKED`. -/
def initChildren (vmar : ℕ) : Vmars :=
  { v with
    children := Function.update v.children vmar .nil
    leftmost := Function.update v.leftmost vmar none }

def setLocked (vmar : ℕ) : Vmars := { v with locked := Function.update v.locked vmar true }

/-- `atomic_fetch_sub` of a reference. -/
def dropRef (vmar : ℕ) : Vmars :=
  { v with refCount := Function.update v.refCount vmar (v.refCount vmar - 1) }

end Vmars

/-- The objects, and the allocators below them. -/
structure Vmm where
  run : SlabRun
  vmars : Vmars

namespace Vmm

variable (k : Kernel) (s : Vmm)

def virt : VirtState := s.run.slabs.virt

def setVirt (vs : VirtState) : Vmm :=
  { s with run := { s.run with slabs := { s.run.slabs with virt := vs } } }

def setVmars (v : Vmars) : Vmm := { s with vmars := v }

/-- `ALLOC(vmar_t)`. -/
def allocVmar : Option (Option ℕ × Vmm) :=
  (s.run.slabs.memAlloc k.d k.entries k.alloc k.vmarType.allocMeta).map fun (object, st) =>
    (object, { s with run := ⟨st, object.toList ++ s.run.live⟩ })

/-- `FREE(vmar_t, vmar)`. Only an object that is handed out can be freed. -/
def freeVmar (vmar : ℕ) : Option Vmm :=
  if vmar ∈ s.run.live then
    (s.run.exec k.d k.entries k.alloc k.vmarType.allocMeta (.free vmar)).map fun r =>
      ⟨r, s.vmars.wipe vmar⟩
  else none

def vmarFree (vmar : ℕ) : Option Vmm :=
  if s.vmars.unmapped vmar then s.freeVmar k vmar else none

def objectPut (vmar : ℕ) : Option Vmm :=
  let refCount := s.vmars.refCount vmar
  if refCount = 0 then none
  else if refCount = 1 then (s.setVmars (s.vmars.dropRef vmar)).vmarFree k vmar
  else some (s.setVmars (s.vmars.dropRef vmar))

/-- A call on the page table. -/
def execVirt (c : VirtCall) : Option Vmm := (s.virt.exec k.d k.entries c).map s.setVirt

def virtReservePageTables (base pageCount : ℕ) : Option (Except TomatoErr Unit × Vmm) :=
  (s.virt.phys.virtReservePageTables k.d s.virt.pageTable base pageCount).map fun (r, phys) =>
    (r, s.setVirt (s.virt.setPhys phys))

/-- The object is freed on the way out with an error. -/
def failWith {α : Type} (vmar : ℕ) (e : TomatoErr) : Option (Except TomatoErr α × Vmm) :=
  (s.freeVmar k vmar).map fun s => (.error e, s)

/-- The value is the new child. -/
def vmarAllocate (parent offset pageCount : ℕ) : Option (Except TomatoErr ℕ × Vmm) :=
  if s.vmars.kind parent ≠ .region then some (.error .invalidArgument, s)
  else if pageCount = 0 then some (.error .invalidArgument, s)
  else do
    let (child, s) ← s.allocVmar k
    match child with
    | none => some (.error .outOfResources, s)
    | some child =>
      let v := (s.vmars.initVmar child .region).initChildren child
      match ← v.vmarAllocateStatic parent child offset pageCount with
      | (.error e, v) => (s.setVmars v).failWith k child e
      | (.ok (), v) => some (.ok child, s.setVmars v)

def vmarMap (parent offset pageCount : ℕ) : Option (Except TomatoErr ℕ × Vmm) :=
  if s.vmars.kind parent ≠ .region then some (.error .invalidArgument, s)
  else if pageCount = 0 then some (.error .invalidArgument, s)
  else do
    let (child, s) ← s.allocVmar k
    match child with
    | none => some (.error .outOfResources, s)
    | some child =>
      -- find a place to put it
      match (s.vmars.initVmar child .mapping).vmarFindPlace parent child offset pageCount with
      | (.error e, v) => (s.setVmars v).failWith k child e
      | (.ok (), v) =>
        -- now reserve the page tables for the range
        match ← (s.setVmars v).virtReservePageTables k (v.base child) (v.pageCount child) with
        | (.error e, s) => s.failWith k child e
        | (.ok (), s) =>
          (s.vmars.vmarLinkInternal parent child).map fun v => (.ok child, s.setVmars v)

def vmarPopulate (vmar : ℕ) : Option (Except TomatoErr Unit × Vmm) :=
  if s.vmars.kind vmar ≠ .mapping then some (.error .invalidArgument, s)
  else do
    let v ← s.vmars.lockPageTable vmar
    if v.unmapped vmar then some (.error .internalError, s.setVmars (v.unlockPageTable vmar))
    else
      let s ← (s.setVmars v).execVirt k
        (.populate (v.base vmar) (v.pageCount vmar) (v.locked vmar))
      some (.ok (), s.setVmars (s.vmars.unlockPageTable vmar))

/-- The loop over the children in `vmar_lock_internal`, for at most so many children. -/
def lockChildren (lock : ℕ → Vmm → Option Vmm) : ℕ → Option ℕ → Vmm → Option Vmm
  | _, none, s => some s
  | 0, some _, _ => none
  | n + 1, some child, s => do
    let s ← lock child s
    lockChildren lock n (s.vmars.next child) s

/-- `vmar_lock_internal`, for at most so many levels. -/
def vmarLockInternal : ℕ → ℕ → Vmm → Option Vmm
  | 0, _, _ => none
  | fuel + 1, vmar, s =>
    let s := s.setVmars (s.vmars.setLocked vmar)
    match s.vmars.kind vmar with
    | .region => lockChildren (vmarLockInternal fuel) fuel (s.vmars.leftmost vmar) s
    | .mapping => do
      let v ← s.vmars.lockPageTable vmar
      let s ← (s.setVmars v).execVirt k (.makeGlobal (v.base vmar) (v.pageCount vmar))
      some (s.setVmars (s.vmars.unlockPageTable vmar))
    | .special => some s

def vmarLock (fuel vmar : ℕ) : Option Vmm :=
  if s.vmars.unmapped vmar then none else vmarLockInternal k fuel vmar s

/-- The loop over the children in `vmar_unmap_internal`, for at most so many children. -/
def unmapChildren (unmap : ℕ → Vmm → Option Vmm) : ℕ → Option ℕ → Vmm → Option Vmm
  | _, none, s => some s
  | 0, some _, _ => none
  | n + 1, some child, s =>
    -- the next one is read before the child goes
    let it := s.vmars.next child
    if s.vmars.unmapped child then none
    else if s.vmars.locked child then none
    else do
      let s ← unmap child s
      let s ← s.objectPut k child
      unmapChildren unmap n it s

/-- `vmar_unmap_internal`, for at most so many levels. -/
def vmarUnmapInternal : ℕ → ℕ → Vmm → Option Vmm
  | 0, _, _ => none
  | fuel + 1, vmar, s =>
    if s.vmars.unmapped vmar then none
    else if s.vmars.locked vmar then none
    else do
      let parent ← s.vmars.parent vmar
      if s.vmars.kind parent ≠ .region then none
      else
        let s ← match s.vmars.kind vmar with
          | .region =>
            unmapChildren k (vmarUnmapInternal fuel) fuel (s.vmars.leftmost vmar) s
          | .mapping => do
            let v ← s.vmars.lockPageTable vmar
            let s ← (s.setVmars v).execVirt k (.free (v.base vmar) (v.pageCount vmar))
            some (s.setVmars (s.vmars.unlockPageTable vmar))
          | .special => none
        (s.vmars.vmarUnlink parent vmar).map s.setVmars

def vmarUnmap (fuel vmar : ℕ) : Option Vmm :=
  if s.vmars.unmapped vmar then some s
  else do
    let s ← vmarUnmapInternal k fuel vmar s
    s.objectPut k vmar

/-- How `virt_page_fault_handler` ends: it returns, or it stops to kill the thread. -/
inductive FaultResult
  | returned (err : Except TomatoErr Unit)
  | killed

/-- A failed `CHECK_KILL`. -/
def checkKillFailed (errorCode : ℕ) : FaultResult :=
  if errorCode &&& IA32_PF_EC_USER ≠ 0 then .killed else .returned (.error .internalError)

/-- The deferred part of `virt_page_fault_handler`, which does not run if it stops. -/
def leaveFault (vmar : ℕ) : FaultResult → Option (FaultResult × Vmm)
  | .killed => some (.killed, s)
  | .returned err =>
    ((s.setVmars (s.vmars.unlockPageTable vmar)).objectPut k vmar).map fun s => (.returned err, s)

/-- The region that the address of a fault is looked up in. -/
def faultRoot (addr errorCode : ℕ) : ℕ :=
  if errorCode &&& IA32_PF_EC_USER ≠ 0 ∨ addr < s.vmars.base k.kernelRegion then k.userRegion
  else k.kernelRegion

def virtPageFaultHandler (fuel addr errorCode : ℕ) : Option (FaultResult × Vmm) :=
  if errorCode &&& (IA32_PF_EC_USER ||| IA32_PF_EC_WRITE ||| IA32_PF_EC_PROT |||
      IA32_PF_EC_INSTR) ≠ errorCode then some (.returned (.error .internalError), s)
  else do
    let (vmar, v) ← s.vmars.vmarFindMapping fuel (s.faultRoot k addr errorCode) addr
    match vmar with
    | none => some (checkKillFailed errorCode, s)
    | some vmar =>
      let s := s.setVmars v
      -- we should never get a protection fault
      if errorCode &&& IA32_PF_EC_PROT ≠ 0 then s.leaveFault k vmar (checkKillFailed errorCode)
      else if errorCode &&& IA32_PF_EC_INSTR ≠ 0 then
        s.leaveFault k vmar (checkKillFailed errorCode)
      else do
        -- populate a single page
        let s ← s.execVirt k (.populate addr 1 (v.locked vmar))
        s.leaveFault k vmar (.returned (.ok ()))

end Vmm

end Tomato
