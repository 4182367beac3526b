import Tomato.Lib.List
import Tomato.Mem.Virt.Run

/-!
# The slab allocator

`mem/alloc.c`: objects of one size, in slabs of one page of the physical allocator each. A
slab is on one of the three lists of its allocator, and has a list of its free objects.

The links of the list entries, and the fields of the slabs, are maps from addresses. The
link of a slab is its first field, so that its address is the one of the slab. `none` is a
failed `ASSERT` or a failed check of a list, and `nullptr` is a result `none`.
-/

namespace Tomato

/-- `ALIGN_UP`. -/
def alignUp (x align : ℕ) : ℕ := (x + (align - 1)) / align * align

/-- `ALIGN_DOWN`. -/
def alignDown (x align : ℕ) : ℕ := x / align * align

/-- `sizeof(mem_alloc_slab_t)`. -/
def SLAB_SIZE : ℕ := 48

def UINT16_MAX : ℕ := 65535

structure MemAllocMeta where
  objectsPerSlab : ℕ
  objectStride : ℕ
  objectSize : ℕ
  objectAlign : ℕ

/-- The addresses of a `mem_alloc_t` and of its lists. -/
structure MemAlloc where
  ptr : ℕ
  partialList : ℕ
  fullList : ℕ
  emptyList : ℕ

/-- A type with its size and its alignment. -/
structure CType where
  size : ℕ
  align : ℕ
  align_pow : ∃ k, align = 2 ^ k
  align_dvd : align ∣ size

namespace CType

variable (T : CType)

/-- `m_##type##_alloc_stride`. -/
def allocStride : ℕ := alignUp (max 8 T.size) T.align

/-- `m_##type##_alloc_objects_per_slab`, whose difference is one of 64 bits. -/
def allocObjectsPerSlab : ℕ :=
  (PAGE_SIZE + 2 ^ 64 - alignUp SLAB_SIZE T.align) % 2 ^ 64 / T.allocStride

/-- The static assertions of `DEFINE_ALLOC`. -/
structure DefineAlloc : Prop where
  size_ge : 16 ≤ T.size
  size_le : T.size ≤ UINT16_MAX
  align_le : T.align ≤ UINT16_MAX
  stride_le : T.allocStride ≤ UINT16_MAX
  stride_ge : T.size ≤ T.allocStride
  objects_ge : 1 ≤ T.allocObjectsPerSlab
  objects_le : T.allocObjectsPerSlab ≤ UINT16_MAX

/-- `m_##type##_alloc_meta`. -/
def allocMeta : MemAllocMeta where
  objectsPerSlab := T.allocObjectsPerSlab
  objectStride := T.allocStride
  objectSize := T.size
  objectAlign := T.align

end CType

/-- `&slab->free`. -/
def slabFree (slab : ℕ) : ℕ := slab + 16

/-- `&slab->in_use`. -/
def slabInUse (slab : ℕ) : ℕ := slab + 40

def objectToSlab (p : ℕ) : ℕ := alignDown p PAGE_SIZE

/-- `phys_alloc`, whose caller then holds the block. -/
def VirtState.physAlloc (d : DirectMap) (st : VirtState) (size : ℕ) :
    Option (Option ℕ × VirtState) :=
  (st.phys.physAlloc d size).map fun r =>
    (r.1, { st with boot := { st.boot with clients := st.boot.clients.handOut size r } })

/-- The state of an allocator. `created` are the slabs that were made so far, which the
code does not record. -/
structure Slabs where
  links : Links ℕ
  alloc : ℕ → ℕ
  inUse : ℕ → ℕ
  virt : VirtState
  created : List ℕ

/-- The loop of `slab_create` that links the objects. -/
def linkObjects (free area stride : ℕ) : ℕ → Links ℕ → Option (Links ℕ)
  | 0, l => some l
  | n + 1, l => (linkObjects free area stride n l).bind fun l => l.listAdd free (area + stride * n)

namespace Slabs

variable (d : DirectMap) (entries : Memmap) (a : MemAlloc) (m : MemAllocMeta) (st : Slabs)

def slabCreate : Option (Option ℕ × Slabs) := do
  let (slab, virt) ← st.virt.physAlloc d PAGE_SIZE
  match slab with
  | none => some (none, { st with virt := virt })
  | some slab =>
    let virt ← virt.exec d entries (.makeGlobal slab 1)
    let area := slab + alignUp SLAB_SIZE m.objectAlign
    let links ← linkObjects (slabFree slab) area m.objectStride m.objectsPerSlab
      (st.links.initList (slabFree slab))
    -- the counter is not set, it is what is in the page
    some (some slab,
      { links := links
        alloc := Function.update st.alloc slab a.ptr
        inUse := Function.update st.inUse slab (virt.phys.mem (slabInUse slab) % 2 ^ 16)
        virt := virt
        created := slab :: st.created })

/-- The choice of a slab in `mem_alloc`. -/
def chooseSlab : Option (Option ℕ × Slabs) :=
  if !st.links.listEmpty a.partialList then some (some (st.links.next a.partialList), st)
  else if !st.links.listEmpty a.emptyList then do
    let slab := st.links.next a.emptyList
    -- move to partial list
    let links ← st.links.listDel LIST_POISON1 LIST_POISON2 slab
    let links ← links.listAdd a.partialList slab
    some (some slab, { st with links := links })
  else do
    let (slab, st) ← st.slabCreate d entries a m
    match slab with
    | none => some (none, st)
    | some slab =>
      let links ← st.links.listAdd a.partialList slab
      some (some slab, { st with links := links })

/-- The rest of `mem_alloc`. -/
def takeObject (slab : ℕ) : Option (ℕ × Slabs) :=
  if st.links.listEmpty (slabFree slab) then none
  else do
    let object := st.links.next (slabFree slab)
    let links ← st.links.listDel LIST_POISON1 LIST_POISON2 object
    let links := (links.setNext object 0).setPrev object 0
    let count := (st.inUse slab + 1) % 2 ^ 16
    let st := { st with links := links, inUse := Function.update st.inUse slab count }
    -- if slab becomes full, move to the full list
    if count = m.objectsPerSlab then do
      let links ← st.links.listDel LIST_POISON1 LIST_POISON2 slab
      let links ← links.listAdd a.fullList slab
      some (object, { st with links := links })
    else some (object, st)

def memAlloc : Option (Option ℕ × Slabs) := do
  let (slab, st) ← st.chooseSlab d entries a m
  match slab with
  | none => some (none, st)
  | some slab => (st.takeObject a m slab).map fun (object, st) => (some object, st)

def memFree (ptr : ℕ) : Option Slabs :=
  if ptr = 0 then some st
  else
    let slab := objectToSlab ptr
    if st.alloc slab ≠ a.ptr then none
    else do
      -- the object is wiped, its link with it
      let links := (st.links.setNext ptr 0).setPrev ptr 0
      let links ← links.listAddTail (slabFree slab) ptr
      if st.inUse slab = 0 then none
      else do
        let wasFull := st.inUse slab = m.objectsPerSlab
        let count := st.inUse slab - 1
        let st := { st with links := links, inUse := Function.update st.inUse slab count }
        if count = 0 then do
          let links ← st.links.listDel LIST_POISON1 LIST_POISON2 slab
          let links ← links.listAddTail a.emptyList slab
          some { st with links := links }
        else if wasFull then do
          let links ← st.links.listDel LIST_POISON1 LIST_POISON2 slab
          let links ← links.listAddTail a.partialList slab
          some { st with links := links }
        else some st

end Slabs

end Tomato
