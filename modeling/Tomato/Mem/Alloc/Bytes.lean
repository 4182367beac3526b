import Tomato.Lib.ByteLinks
import Tomato.Mem.Alloc.Run

/-!
# The slab allocator in memory

`mem/alloc.c` on bytes: the links of the free objects are in the objects, the header of a
slab is in its page, and the lists of an allocator come after its lock.

A page that the physical allocator hands out has the bytes that are in its memory then. As
long as it is a slab, its bytes are those of the allocator and of the clients.
-/

namespace Tomato

/-- `memset`. -/
def memset (c : UInt8) : ℕ → ℕ → Bytes → Bytes
  | _, 0, b => b
  | dst, len + 1, b => memset c (dst + 1) len (Function.update b dst c)

/-- The bytes from `p` on are those of another memory. -/
def Bytes.load (b : Bytes) (p n : ℕ) (mem : ℕ → ℕ) : Bytes := fun x =>
  if p ≤ x ∧ x < p + n then UInt8.ofNat (mem x) else b x

/-- `&slab->alloc`. -/
def slabAlloc (slab : ℕ) : ℕ := slab + 32

/-- The lists of a `mem_alloc_t`, whose first field is the lock. -/
def memAllocAt (ptr : ℕ) : MemAlloc := ⟨ptr, ptr + 8, ptr + 24, ptr + 40⟩

/-- The memory of an allocator. `created` are the slabs that were made so far, which the code
does not record. -/
structure SlabBytes where
  bytes : Bytes
  virt : VirtState
  created : List ℕ

/-- The loop of `slab_create`. -/
def fillObjects (m : MemAllocMeta) (free area : ℕ) : ℕ → Bytes → Option Bytes
  | 0, b => some b
  | n + 1, b => do
    let b ← fillObjects m free area n b
    let node := area + m.objectStride * n
    let b ← b.listAdd free node
    some (memset 0xBB (node + m.objectSize) (m.objectStride - m.objectSize) b)

namespace SlabBytes

variable (d : DirectMap) (entries : Memmap) (a : MemAlloc) (m : MemAllocMeta) (st : SlabBytes)

def slabCreate : Option (Option ℕ × SlabBytes) := do
  let (slab, virt) ← st.virt.physAlloc d PAGE_SIZE
  match slab with
  | none => some (none, { st with virt := virt })
  | some slab =>
    let virt ← virt.exec d entries (.makeGlobal slab 1)
    let b := st.bytes.load slab PAGE_SIZE virt.phys.mem
    -- setup the metadata
    let b := b.write (slabAlloc slab) 8 a.ptr
    let b := b.initList (slabFree slab)
    -- link all the objects into the linked list
    let area := slab + alignUp SLAB_SIZE m.objectAlign
    let b ← fillObjects m (slabFree slab) area m.objectsPerSlab b
    some (some slab, ⟨b, virt, slab :: st.created⟩)

/-- The choice of a slab in `mem_alloc`. -/
def chooseSlab : Option (Option ℕ × SlabBytes) :=
  if !st.bytes.links.listEmpty a.partialList then
    some (some (st.bytes.links.next a.partialList), st)
  else if !st.bytes.links.listEmpty a.emptyList then do
    let slab := st.bytes.links.next a.emptyList
    -- move to partial list
    let b ← st.bytes.listDel LIST_POISON1 LIST_POISON2 slab
    let b ← b.listAdd a.partialList slab
    some (some slab, { st with bytes := b })
  else do
    let (slab, st) ← st.slabCreate d entries a m
    match slab with
    | none => some (none, st)
    | some slab =>
      let b ← st.bytes.listAdd a.partialList slab
      some (some slab, { st with bytes := b })

/-- The rest of `mem_alloc`. -/
def takeObject (slab : ℕ) : Option (ℕ × SlabBytes) :=
  if st.bytes.links.listEmpty (slabFree slab) then none
  else do
    let object := st.bytes.links.next (slabFree slab)
    let b ← st.bytes.listDel LIST_POISON1 LIST_POISON2 object
    let b := (b.setNext object 0).setPrev object 0
    let count := (b.read (slabInUse slab) 2 + 1) % 2 ^ 16
    let b := b.write (slabInUse slab) 2 count
    -- if slab becomes full, move to the full list
    if count = m.objectsPerSlab then do
      let b ← b.listDel LIST_POISON1 LIST_POISON2 slab
      let b ← b.listAdd a.fullList slab
      some (object, { st with bytes := b })
    else some (object, { st with bytes := b })

def memAlloc : Option (Option ℕ × SlabBytes) := do
  let (slab, st) ← st.chooseSlab d entries a m
  match slab with
  | none => some (none, st)
  | some slab => (st.takeObject a m slab).map fun (object, st) => (some object, st)

def memFree (ptr : ℕ) : Option SlabBytes :=
  if ptr = 0 then some st
  else
    let slab := objectToSlab ptr
    if st.bytes.read (slabAlloc slab) 8 ≠ a.ptr then none
    else do
      let b := memset 0 ptr m.objectSize st.bytes
      let b ← b.listAddTail (slabFree slab) ptr
      if b.read (slabInUse slab) 2 = 0 then none
      else do
        let wasFull := b.read (slabInUse slab) 2 = m.objectsPerSlab
        let count := b.read (slabInUse slab) 2 - 1
        let b := b.write (slabInUse slab) 2 count
        if count = 0 then do
          let b ← b.listDel LIST_POISON1 LIST_POISON2 slab
          let b ← b.listAddTail a.emptyList slab
          some { st with bytes := b }
        else if wasFull then do
          let b ← b.listDel LIST_POISON1 LIST_POISON2 slab
          let b ← b.listAddTail a.partialList slab
          some { st with bytes := b }
        else some { st with bytes := b }

end SlabBytes

end Tomato
