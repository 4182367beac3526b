import Tomato.Mem.Vmar.StillHeld
import Tomato.Thread.Sched

/-!
# The creation of threads

`thread_create` and `thread_free` of `thread/thread.c`, with the objects that a thread is made of:
the `thread_t`, and the region of its stack. The slabs of the threads are beside those of the
vmars, on pages of the same allocator.

`none` is a failed `ASSERT` or an access through a null pointer.
-/

namespace Tomato

open Transition

/-- The constants of the kernel, with the allocator of `DEFINE_ALLOC(thread_t)`. -/
structure ThreadKernel extends Kernel where
  threadAlloc : MemAlloc
  threadType : CType
  threadAlloc_ok : threadAlloc.Ok d
  threadDefine : threadType.DefineAlloc
  threadEntryThunk : ℕ

/-- What `thread_create` sets of a `thread_entry_frame_t`. -/
structure EntryFrame where
  rip : ℕ
  rdi : ℕ
  rsi : ℕ
deriving DecidableEq

/-- `sizeof(thread_entry_frame_t)`. -/
def ENTRY_FRAME_SIZE : ℕ := 72

/-- The fields of the threads. -/
structure ThreadFields where
  refCount : ℕ → ℕ
  state : ℕ → ThreadState
  kernelStack : ℕ → ℕ
  kernelRsp : ℕ → ℕ

namespace ThreadFields

variable (f : ThreadFields) (thread : ℕ)

/-- A thread that is freed is wiped. -/
def wipe : ThreadFields where
  refCount := Function.update f.refCount thread 0
  state := Function.update f.state thread .idle
  kernelStack := Function.update f.kernelStack thread 0
  kernelRsp := Function.update f.kernelRsp thread 0

def init : ThreadFields :=
  { f with
    refCount := Function.update f.refCount thread 1
    state := Function.update f.state thread .idle }

def setRefCount (n : ℕ) : ThreadFields := { f with refCount := Function.update f.refCount thread n }

def setStack (kernelStack kernelRsp : ℕ) : ThreadFields :=
  { f with
    kernelStack := Function.update f.kernelStack thread kernelStack
    kernelRsp := Function.update f.kernelRsp thread kernelRsp }

end ThreadFields

/-- The virtual memory and the threads. `own` counts the handles of the callers, `live` are the
threads that are handed out, and `frame` is the frame at an address. `freed` are the stacks of the
threads that were freed, which the code does not record. -/
structure ThreadRun where
  vmm : Vmm
  own : ℕ → ℕ
  slabs : Slabs
  live : List ℕ
  fields : ThreadFields
  frame : ℕ → EntryFrame
  runQueue : List ℕ
  freed : List ℕ

namespace ThreadRun

variable (k : ThreadKernel) (t : ThreadRun)

/-- The allocator of the threads, over the page table and the physical allocator of `vmm`. -/
def threadSlabs : SlabRun := ⟨{ t.slabs with virt := t.vmm.virt }, t.live⟩

def setThreadSlabs (r : SlabRun) : ThreadRun :=
  { t with vmm := t.vmm.setVirt r.slabs.virt, slabs := r.slabs, live := r.live }

/-- `ALLOC(thread_t)`. -/
def allocThread : Option (Option ℕ × ThreadRun) :=
  (t.threadSlabs.slabs.memAlloc k.d k.entries k.threadAlloc k.threadType.allocMeta).map
    fun (object, st) => (object, t.setThreadSlabs ⟨st, object.toList ++ t.live⟩)

/-- `FREE(thread_t, thread)`. Only an object that is handed out can be freed. -/
def freeThread (thread : ℕ) : Option ThreadRun :=
  if thread ∈ t.live then
    (t.threadSlabs.exec k.d k.entries k.threadAlloc k.threadType.allocMeta (.free thread)).map
      fun r => { t.setThreadSlabs r with fields := t.fields.wipe thread }
  else none

/-- The value of `*out` is returned, too. -/
def threadCreate (fuel out entry arg : ℕ) : Option (Except TomatoErr Unit × ℕ × ThreadRun) := do
  let (thread, t) ← t.allocThread k
  -- the object is written without a look at the pointer
  let thread ← thread
  let t := { t with fields := t.fields.init thread }
  let (res, kernelStack, s) ← t.vmm.stackAlloc k.toKernel fuel ⟨0, 0⟩ PAGE_SIZE false
  let t := { t with vmm := s }
  match res with
  | .error e => (t.freeThread k thread).map fun t => (.error e, out, t)
  | .ok () =>
    let rsp := kernelStack.stackBottom - ENTRY_FRAME_SIZE
    some (.ok (), thread, { t with
      fields := t.fields.setStack thread kernelStack.stackRegion rsp
      frame := Function.update t.frame rsp ⟨k.threadEntryThunk, entry, arg⟩ })

def threadFree (fuel thread : ℕ) : Option ThreadRun := do
  let s ← t.vmm.vmarUnmap k.toKernel fuel (t.fields.kernelStack thread)
  { t with vmm := s, freed := t.fields.kernelStack thread :: t.freed }.freeThread k thread

/-- `OBJECT_PUT(thread)`. -/
def threadPut (fuel thread : ℕ) : Option ThreadRun :=
  let refCount := t.fields.refCount thread
  let t' := { t with fields := t.fields.setRefCount thread (refCount - 1) }
  if refCount = 0 then none
  else if refCount = 1 then t'.threadFree k fuel thread
  else some t'

/-- `OBJECT_GET(thread)`. -/
def threadGet (thread : ℕ) : ThreadRun :=
  { t with fields := t.fields.setRefCount thread (t.fields.refCount thread + 1) }

def threadStart (thread : ℕ) : Option ThreadRun :=
  if t.fields.state thread = .idle then
    some { t with
      fields := { t.fields with state := Function.update t.fields.state thread .ready }
      runQueue := t.runQueue ++ [thread] }
  else none

inductive Call
  | vmm (c : VmmCall)
  | create (out entry arg : ℕ)
  | get (thread : ℕ)
  | put (thread : ℕ)
  | start (thread : ℕ)

/-- A call, with so many levels and rounds for the loops. -/
def exec (fuel : ℕ) : Call → Option ThreadRun
  | .vmm c => ((VmmRun.mk t.vmm t.own).exec k.toKernel fuel c).map fun r =>
      { t with vmm := r.vmm, own := r.handles }
  | .create out entry arg => (t.threadCreate k fuel out entry arg).map fun r => r.2.2
  | .get thread => some (t.threadGet thread)
  | .put thread => t.threadPut k fuel thread
  | .start thread => t.threadStart thread

/-- When a call may be made. Nobody else frees a slab of the threads. -/
def Valid : Call → Prop
  | .vmm c => (VmmRun.mk t.vmm t.own).Valid k.toKernel c ∧ ∀ slab ∈ t.slabs.created, ∀ size,
      c ≠ .client (.free slab size) ∧ c ≠ .client (.freeReserved slab size)
  | .create _ _ _ => True
  | .get thread | .put thread | .start thread => thread ∈ t.live

/-- The state after the boot, when there is no thread. -/
def Initial : Prop :=
  VmmRun.Initial k.toKernel ⟨t.vmm, t.own⟩ ∧ t.slabs.created = [] ∧ t.live = [] ∧
    (∀ h ∈ [k.threadAlloc.partialList, k.threadAlloc.fullList, k.threadAlloc.emptyList],
      t.slabs.links.Ring h []) ∧ t.runQueue = [] ∧ t.freed = []

/-- A call returns when its loops have levels and rounds enough. -/
def Step (t t' : ThreadRun) : Prop :=
  ∃ c, t.Valid k c ∧ ∃ m, ∀ fuel, m ≤ fuel → t.exec k fuel c = some t'

/-- The handles of the thread for the region of its stack. -/
def threadHandles (x : ℕ) : ℕ := t.live.countP fun thread => t.fields.kernelStack thread = x

end ThreadRun

end Tomato
