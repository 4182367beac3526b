import Tomato.Mem.Vmar.Run

/-!
# The boot of the virtual memory

`early_virt_init` of `boot/virt.c`: the page table is filled with the sections of the kernel
and the direct map, the vmars of the kernel are linked, the bitmap of the buddy allocator is
mapped, and the memory is handed over.

`none` is a failed `ASSERT`.
-/

namespace Tomato

/-- The sections of the kernel, in the order of `linker.lds`. -/
inductive KernelSection
  | limineRequests
  | initText
  | initRodata
  | initData
  | text
  | rodata
  | lateRodata
  | data
deriving DecidableEq

/-- `vm_perm_t`. -/
inductive VmPerm
  | ro
  | rw
  | rx
deriving DecidableEq

namespace KernelSection

def all : List KernelSection :=
  [.limineRequests, .initText, .initRodata, .initData, .text, .rodata, .lateRodata, .data]

/-- The permissions that `early_map_kernel` gives to a section. -/
def perms : KernelSection → VmPerm
  | .limineRequests | .initRodata | .rodata => .ro
  | .initText | .text => .rx
  | .initData | .lateRodata | .data => .rw

end KernelSection

/-- Where the linker and the bootloader have put the kernel, with the addresses of
`g_direct_map`, of `g_buddy_bitmap_mapping` and of the vmars of the sections. No section is
empty, and the first one is at `virtBase`, in the last two gigabytes. -/
structure KernelImage (k : Kernel) where
  directMap : ℕ
  buddyBitmap : ℕ
  mapping : KernelSection → ℕ
  pageCount : KernelSection → ℕ
  physBase : ℕ
  virtBase : ℕ
  distinct : (directMap :: buddyBitmap :: KernelSection.all.map mapping).Nodup
  static : ∀ x ∈ directMap :: buddyBitmap :: KernelSection.all.map mapping,
    x ∉ k.d.range ∧ x ∉ k.roots
  pageCount_pos : ∀ s, 0 < pageCount s
  virtBase_dvd : PAGE_SIZE ∣ virtBase
  virtBase_ge : 0xFFFFFFFF80000000 ≤ virtBase

/-- `DIV_ROUND_UP`. -/
def divRoundUp (x y : ℕ) : ℕ := (x + (y - 1)) / y

/-- `bitmap_page_count` of `early_create_buddy_bitmap`. -/
def bitmapPageCount (d : DirectMap) : ℕ :=
  let top := alignUp (d.pageCount * PAGE_SIZE) PHYS_BUDDY_MAX_SIZE
  divRoundUp (divRoundUp (top >>> PHYS_BUDDY_MIN_ORDER) 8) PAGE_SIZE

/-- `bitmap_start` and `bitmap_end` for an entry of the memory map. -/
def bitmapStart (e : MemmapEntry) : ℕ :=
  let start := alignDown e.base PHYS_BUDDY_MAX_SIZE
  alignDown ((start >>> PHYS_BUDDY_MIN_ORDER) / 8) PAGE_SIZE

def bitmapEnd (e : MemmapEntry) : ℕ :=
  let end_ := alignUp (e.base + e.length) PHYS_BUDDY_MAX_SIZE
  alignUp (divRoundUp (end_ >>> PHYS_BUDDY_MIN_ORDER) 8) PAGE_SIZE

namespace KernelImage

variable {k : Kernel} (img : KernelImage k)

/-- The number of pages of the sections before this one. -/
def pagesBefore (s : KernelSection) : ℕ :=
  ((KernelSection.all.takeWhile (· ≠ s)).map img.pageCount).sum

/-- `__name_start`. -/
def sectionStart (s : KernelSection) : ℕ := img.virtBase + img.pagesBefore s * PAGE_SIZE

/-- The section whose vmar it is. -/
def sectionOf (x : ℕ) : Option KernelSection := KernelSection.all.find? (img.mapping · = x)

/-- The address is one of the direct map. -/
def inHeap (x : ℕ) : Bool := decide (k.d.base ≤ x ∧ x < k.d.base + k.d.pageCount * 4096)

def isRoot (x : ℕ) : Bool := x == k.kernelRegion || x == k.userRegion

/-- The vmars before the boot code runs, those of `mem/mapping.c`. What is not in the data
of the kernel is zero. -/
def initVmars : Vmars where
  refCount := fun x => if inHeap (k := k) x then 0 else 1
  base := fun x => (img.sectionOf x).elim 0 img.sectionStart
  pageCount := fun x => (img.sectionOf x).elim 0 img.pageCount
  parent := fun _ => none
  gap := fun _ => 0
  maxGap := fun _ => 0
  kind := fun x => if inHeap (k := k) x || isRoot (k := k) x then .region else .special
  unmapped := fun _ => false
  locked := fun x => !(inHeap (k := k) x || isRoot (k := k) x)
  prev := fun _ => none
  next := fun _ => none
  children := fun _ => .nil
  leftmost := fun _ => none
  pageTableLock := fun _ => false

end KernelImage

namespace Vmars

variable (k : Kernel) (v : Vmars)

def initKernelRegion : Vmars :=
  (v.setRange k.kernelRegion KERNEL_REGION_BASE (2 ^ 47 / PAGE_SIZE)).setRange k.userRegion
    (2 ^ 32) ((2 ^ 47 - 2 ^ 32 - PAGE_SIZE) / PAGE_SIZE)

def initDirectMap (img : KernelImage k) : Vmars :=
  v.setRange img.directMap k.d.base (k.entries.topAddress / PAGE_SIZE)

/-- The calls of `vmar_link` in `early_virt_init`. -/
def linkKernel (img : KernelImage k) : Option Vmars :=
  (img.directMap :: KernelSection.all.map img.mapping).foldlM
    (fun v x => v.vmarLink k.kernelRegion x) v

end Vmars

/-- The flags of the pages of a section. -/
def sectionFlags (perms : VmPerm) : ℕ :=
  let flags := IA32_PG_G
  let flags := if perms = .rw then flags ||| (IA32_PG_D ||| IA32_PG_RW) else flags
  if perms ≠ .rx then flags ||| IA32_PG_NX else flags

/-- The flags of the pages of the direct map. -/
def directFlags : ℕ := IA32_PG_RW ||| IA32_PG_D ||| IA32_PG_NX

namespace VirtState

variable (k : Kernel) (img : KernelImage k) (vs : VirtState)

def earlyMapVmar (v : Vmars) (vmar : ℕ) (perms : VmPerm) : Option VirtState :=
  let physAddr := (sub64 (v.base vmar) img.virtBase + img.physBase) % 2 ^ 64
  vs.exec k.d k.entries
    (.earlyMap (v.base vmar) physAddr (v.pageCount vmar) (sectionFlags perms))

def earlyMapKernel (v : Vmars) : Option VirtState :=
  KernelSection.all.foldlM (fun vs s => vs.earlyMapVmar k img v (img.mapping s) s.perms) vs

def earlyMapDirectMap : Option VirtState :=
  (k.entries.filter Memmap.mapped).foldlM (fun vs e => vs.exec k.d k.entries
    (.earlyMap (k.d.physToDirect e.base) e.base (e.length / PAGE_SIZE) directFlags)) vs

/-- The inner loop of `early_create_buddy_bitmap`, whose pointers wrap around. -/
def earlyMapBitmap (base : ℕ) (e : MemmapEntry) : Option VirtState :=
  let bitmapPtr := (base + bitmapStart e) % 2 ^ 64
  let bitmapEndPtr := (base + bitmapEnd e) % 2 ^ 64
  forPages bitmapPtr (fun addr vs => vs.exec k.d k.entries (.earlyMapBitmapPage addr))
    (divRoundUp (bitmapEndPtr - bitmapPtr) PAGE_SIZE) vs

def earlyCreateBuddyBitmap (v : Vmars) : Option (Vmars × VirtState) := do
  let (res, v) ← v.vmarAllocateStatic k.kernelRegion img.buddyBitmap VMAR_ANY_OFFSET
    (bitmapPageCount k.d)
  match res with
  | .error _ => none
  | .ok () =>
    let vs ← (k.entries.filter Memmap.mapped).foldlM
      (fun vs e => vs.earlyMapBitmap k (v.base img.buddyBitmap) e) vs
    some (v, vs)

end VirtState

namespace Vmm

variable (k : Kernel) (img : KernelImage k) (s : Vmm)

def earlyVirtInit : Option Vmm := do
  let v := (s.vmars.initKernelRegion k).initDirectMap k img
  let (pageTable, boot) ← s.virt.boot.earlyPhysAllocPage k.d k.entries
  let vs ← (VirtState.mk boot pageTable false ∅).earlyMapKernel k img v
  let vs ← vs.earlyMapDirectMap k
  let v ← v.linkKernel k img
  let (v, vs) ← vs.earlyCreateBuddyBitmap k img v
  let vs ← vs.exec k.d k.entries .earlyAddMemory
  some ((s.setVmars v).setVirt vs)

/-- The state before `early_virt_init`: no page is allocated, there is no slab, and the lists
of slabs are empty. -/
structure Start : Prop where
  boot : s.virt.boot.Initial k.d
  created : s.run.slabs.created = []
  live : s.run.live = []
  rings : ∀ h ∈ [k.alloc.partialList, k.alloc.fullList, k.alloc.emptyList],
    s.run.slabs.links.Ring h []
  vmars : s.vmars = img.initVmars

end Vmm

/-- The state after `early_virt_init`, when nobody has a handle yet. -/
def VmmRun.Initial (k : Kernel) (r : VmmRun) : Prop :=
  ∃ (img : KernelImage k) (s : Vmm), s.Start k img ∧ s.earlyVirtInit k img = some r.vmm ∧
    r.handles = fun _ => 0

end Tomato
