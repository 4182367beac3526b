import Tomato.Lib.Forest
import Tomato.Lib.Reachable
import Tomato.Lib.Tally
import Tomato.Mem.Vmar.Basic
import Mathlib.Order.CompletePartialOrder

/-!
# Vmars on many cores

Any number of cores take page faults, call `vmar_map`, `vmar_allocate`, `vmar_populate` and
`vmar_unmap`, and get and put references. The steps end where a lock is taken or given back, and
the loops of `mem/virt.c` go page by page. A core that waits for a lock has no step.

The tree is given by the parents, and the page table by the leaf entries of the page numbers. Who
has a frame, and how often it was put into an entry and freed from one, is not recorded by the
code. `vmar_lock` is not called: no vmar is locked but those of the boot code, which are special.
-/

namespace Tomato

open Forest

/-- A leaf entry. Of one that was invalidated only the address is left. -/
inductive LeafEntry
  | empty
  | present (frame : ℕ)
  | stale (frame : ℕ)
deriving DecidableEq

/-- The frame in an entry. -/
def LeafEntry.frame : LeafEntry → Option ℕ
  | .empty => none
  | .present f | .stale f => some f

def LeafEntry.Present (e : LeafEntry) : Prop := ∃ f, e = .present f

def LeafEntry.Stale (e : LeafEntry) : Prop := ∃ f, e = .stale f

inductive FrameHolder (ι : Type*)
  | allocator
  | core (c : ι)
  | page (n : ℕ)
  | other
deriving DecidableEq

/-- Who calls `virt_populate`. -/
inductive Populator
  | fault
  | populate
deriving DecidableEq

/-- Where `vmar_unmap_internal` is. -/
inductive UnmapPhase
  | enter
  | lock
  /-- the first loop of `virt_free` -/
  | invalidate (i : ℕ)
  /-- the second one -/
  | free (i : ℕ)
  | unlock
  | unlink
  /-- the `OBJECT_PUT` after it has returned -/
  | put
deriving DecidableEq

/-- The next step of a core. -/
inductive VmarPc
  | idle
  | findLock (root page : ℕ)
  | find (root page : ℕ)
  /-- with a reference, the next one is `mutex_lock` -/
  | findMutex (vmar page : ℕ)
  | findUnlock (vmar page : ℕ)
  | populateLock (vmar : ℕ)
  | populateMutex (vmar : ℕ)
  | populateCheck (vmar : ℕ)
  /-- the loop of `virt_populate`, before the page -/
  | populate (by_ : Populator) (vmar page stop : ℕ)
  | store (by_ : Populator) (vmar page stop frame : ℕ)
  | populateUnlock (by_ : Populator) (vmar : ℕ)
  | faultPut (vmar : ℕ)
  /-- `rwlock_unlock_shared`, and the call is over -/
  | unshare
  | mapLock (parent vmar pageCount : ℕ)
  | mapPlace (parent vmar pageCount : ℕ)
  | mapFail (vmar : ℕ)
  | mapFree (vmar : ℕ)
  | unmapLock (vmar : ℕ)
  | unmapCheck (vmar : ℕ)
  /-- `vmar_unmap_internal`, with the regions above in which it was called -/
  | unmap (phase : UnmapPhase) (vmar : ℕ) (above : List ℕ)
  /-- `rwlock_unlock_exclusive`, and the call is over -/
  | treeUnlock

namespace VmarPc

/-- The lock of the tree is taken. -/
def beforeShared : VmarPc → Option VmarPc
  | .findLock root page => some (.find root page)
  | .populateLock vmar => some (.populateMutex vmar)
  | _ => none

def afterShared : VmarPc → Option VmarPc
  | .findUnlock vmar page => some (.populate .fault vmar page (page + 1))
  | .unshare => some .idle
  | _ => none

def beforeExclusive : VmarPc → Option VmarPc
  | .mapLock parent vmar pageCount => some (.mapPlace parent vmar pageCount)
  | .unmapLock vmar => some (.unmapCheck vmar)
  | _ => none

def afterExclusive : VmarPc → Option VmarPc
  | .mapFail vmar => some (.mapFree vmar)
  | .treeUnlock => some .idle
  | _ => none

/-- The lock of a mapping is taken. -/
def beforeMutex : VmarPc → Option (ℕ × VmarPc)
  | .findMutex vmar page => some (vmar, .findUnlock vmar page)
  | .populateMutex vmar => some (vmar, .populateCheck vmar)
  | .unmap .lock vmar above => some (vmar, .unmap (.invalidate 0) vmar above)
  | _ => none

def afterMutex : VmarPc → Option (ℕ × VmarPc)
  | .populateUnlock .fault vmar => some (vmar, .faultPut vmar)
  | .populateUnlock .populate vmar => some (vmar, .unshare)
  | .unmap .unlock vmar above => some (vmar, .unmap .unlink vmar above)
  | _ => none

/-- Back from `vmar_unmap_internal`. -/
def unmapped : List ℕ → VmarPc
  | [] => .treeUnlock
  | parent :: above => .unmap .enter parent above

/-- How often the core holds the lock of the tree with others. -/
def shared : VmarPc → ℕ
  | .find _ _ | .findMutex _ _ | .findUnlock _ _ | .populateMutex _ | .populateCheck _ | .unshare => 1
  | .populate .populate _ _ _ | .store .populate _ _ _ _ | .populateUnlock .populate _ => 1
  | _ => 0

/-- How often it holds it alone. -/
def exclusive : VmarPc → ℕ
  | .mapPlace _ _ _ | .mapFail _ | .unmapCheck _ | .unmap _ _ _ | .treeUnlock => 1
  | _ => 0

/-- The mapping whose lock the core holds. -/
def mutex : VmarPc → Option ℕ
  | .findUnlock vmar _ | .populateCheck vmar | .populate _ vmar _ _ | .store _ vmar _ _ _ => some vmar
  | .populateUnlock _ vmar => some vmar
  | .unmap (.invalidate _) vmar _ | .unmap (.free _) vmar _ | .unmap .unlock vmar _ => some vmar
  | _ => none

/-- The vmar that the core has a reference to, besides its handles. -/
def ref : VmarPc → Option ℕ
  | .findMutex vmar _ | .findUnlock vmar _ | .faultPut vmar => some vmar
  | .populate .fault vmar _ _ | .store .fault vmar _ _ _ | .populateUnlock .fault vmar => some vmar
  | .unmap .put vmar _ => some vmar
  | _ => none

/-- The vmar that nobody else has seen yet. It has the references of its creator and of the tree. -/
def made : VmarPc → Option ℕ
  | .mapLock _ vmar _ | .mapPlace _ vmar _ | .mapFail vmar | .mapFree vmar => some vmar
  | _ => none

def mutexes (vmar : ℕ) (q : VmarPc) : ℕ := if q.mutex = some vmar then 1 else 0

def refs (vmar : ℕ) (q : VmarPc) : ℕ :=
  (if q.ref = some vmar then 1 else 0) + if q.made = some vmar then 2 else 0

end VmarPc

/-- The vmars, the page table, and the cores. -/
structure VmarCores (ι : Type*) where
  parent : ℕ → Option ℕ
  kind : ℕ → VmarKind
  firstPage : ℕ → ℕ
  pageCount : ℕ → ℕ
  unmapped : ℕ → Bool
  refCount : ℕ → ℕ
  live : Set ℕ
  /-- the readers of `m_vmar_lock` -/
  readers : ℕ
  writer : Bool
  pageTableLock : ℕ → Bool
  leaf : ℕ → LeafEntry
  holder : ℕ → FrameHolder ι
  installed : ℕ → ℕ
  freed : ℕ → ℕ
  handles : ι → ℕ → ℕ
  pc : ι → VmarPc

namespace VmarCores

variable {ι : Type*} [DecidableEq ι] (s : VmarCores ι) (c : ι) (x : ℕ)

def pages : Set ℕ := Set.Ico (s.firstPage x) (s.firstPage x + s.pageCount x)

def Linked : Prop := s.parent x ≠ none

instance : Decidable (s.Linked x) := inferInstanceAs (Decidable (s.parent x ≠ none))

@[simps]
def setPc (q : VmarPc) : VmarCores ι := { s with pc := Function.update s.pc c q }

/-- The lock of a mapping is taken, or given back. -/
@[simps]
def setMutex (locked : Bool) : VmarCores ι :=
  { s with pageTableLock := Function.update s.pageTableLock x locked }

@[simps]
def setHandles (n : ℕ) : VmarCores ι :=
  { s with handles := Function.update s.handles c (Function.update (s.handles c) x n) }

@[simps]
def objectGet : VmarCores ι :=
  { s with refCount := Function.update s.refCount x (s.refCount x + 1) }

/-- The last reference frees the object. -/
@[simps]
def objectPut : VmarCores ι :=
  { s with
    refCount := Function.update s.refCount x (s.refCount x - 1)
    live := if s.refCount x = 1 then s.live \ {x} else s.live }

/-- The object that `vmar_allocate` or `vmar_map` allocates. -/
@[simps]
def newVmar (kind : VmarKind) : VmarCores ι :=
  { s with
    kind := Function.update s.kind x kind
    unmapped := Function.update s.unmapped x false
    refCount := Function.update s.refCount x 2
    live := insert x s.live }

@[simps]
def freeVmar : VmarCores ι :=
  { s with
    refCount := Function.update s.refCount x 0
    live := s.live \ {x} }

/-- The end of `vmar_find_place`, and `vmar_link_internal`. -/
@[simps]
def link (parent first pageCount : ℕ) : VmarCores ι :=
  { s with
    parent := Function.update s.parent x (some parent)
    firstPage := Function.update s.firstPage x first
    pageCount := Function.update s.pageCount x pageCount }

@[simps]
def unlink : VmarCores ι :=
  { s with
    parent := Function.update s.parent x none
    unmapped := Function.update s.unmapped x true }

@[simps]
def setHolder (f : ℕ) (h : FrameHolder ι) : VmarCores ι :=
  { s with holder := Function.update s.holder f h }

/-- The entry that `virt_populate` stores. -/
@[simps]
def install (n f : ℕ) : VmarCores ι :=
  { s with
    leaf := Function.update s.leaf n (.present f)
    holder := Function.update s.holder f (.page n)
    installed := Function.update s.installed f (s.installed f + 1) }

@[simps]
def invalidate (n f : ℕ) : VmarCores ι :=
  { s with leaf := Function.update s.leaf n (.stale f) }

/-- `phys_free` of the frame in an entry, and the entry is zero. -/
@[simps]
def freePage (n f : ℕ) : VmarCores ι :=
  { s with
    leaf := Function.update s.leaf n .empty
    holder := Function.update s.holder f .allocator
    freed := Function.update s.freed f (s.freed f + 1) }

/-- The range lies in the parent, and in none of its children. -/
structure Fits (parent first pageCount : ℕ) : Prop where
  inside : Set.Ico first (first + pageCount) ⊆ s.pages parent
  apart : ∀ y, s.parent y = some parent → Disjoint (s.pages y) (Set.Ico first (first + pageCount))

/-- The steps that change nothing but where the core is. -/
inductive Goto (roots : Finset ℕ) (s : VmarCores ι) (c : ι) : VmarPc → VmarPc → Prop
  /-- a page fault -/
  | fault {root page : ℕ} (hr : root ∈ roots) : Goto roots s c .idle (.findLock root page)
  | populate {x : ℕ} (hh : 0 < s.handles c x) (hk : s.kind x = .mapping) :
      Goto roots s c .idle (.populateLock x)
  | unmap {x : ℕ} (hh : 0 < s.handles c x) : Goto roots s c .idle (.unmapLock x)
  | notFound {root page : ℕ}
      (hn : ∀ x, Below s.parent x root → s.kind x = .mapping → page ∉ s.pages x) :
      Goto roots s c (.find root page) .unshare
  /-- an access that may not be -/
  | denied {x page stop : ℕ} :
      Goto roots s c (.populate .fault x page stop) (.populateUnlock .fault x)
  | mapped {x : ℕ} (hu : s.unmapped x = false) :
      Goto roots s c (.populateCheck x)
        (.populate .populate x (s.firstPage x) (s.firstPage x + s.pageCount x))
  | notMapped {x : ℕ} (hu : s.unmapped x = true) :
      Goto roots s c (.populateCheck x) (.populateUnlock .populate x)
  /-- an entry that is already populated -/
  | skip {by_ : Populator} {x page stop : ℕ} (hn : page < stop) (hp : (s.leaf page).Present) :
      Goto roots s c (.populate by_ x page stop) (.populate by_ x (page + 1) stop)
  | populated {by_ : Populator} {x page stop : ℕ} (hn : stop ≤ page) :
      Goto roots s c (.populate by_ x page stop) (.populateUnlock by_ x)
  | alreadyUnmapped {x : ℕ} (hu : s.unmapped x = true) : Goto roots s c (.unmapCheck x) .treeUnlock
  | enter {x : ℕ} (hu : s.unmapped x = false) :
      Goto roots s c (.unmapCheck x) (.unmap .enter x [])
  /-- the first child that is left -/
  | child {x y : ℕ} {above : List ℕ} (hk : s.kind x = .region) (hy : s.parent y = some x)
      (hfirst : ∀ z, s.parent z = some x → s.firstPage y ≤ s.firstPage z) :
      Goto roots s c (.unmap .enter x above) (.unmap .enter y (x :: above))
  | noChild {x : ℕ} {above : List ℕ} (hk : s.kind x = .region) (hy : ∀ y, s.parent y ≠ some x) :
      Goto roots s c (.unmap .enter x above) (.unmap .unlink x above)
  | mapping {x : ℕ} {above : List ℕ} (hk : s.kind x = .mapping) :
      Goto roots s c (.unmap .enter x above) (.unmap .lock x above)
  /-- a page that was never populated -/
  | untouched {x i : ℕ} {above : List ℕ} (hi : i < s.pageCount x)
      (he : s.leaf (s.firstPage x + i) = .empty) :
      Goto roots s c (.unmap (.invalidate i) x above) (.unmap (.invalidate (i + 1)) x above)
  | invalidated {x i : ℕ} {above : List ℕ} (hi : s.pageCount x ≤ i) :
      Goto roots s c (.unmap (.invalidate i) x above) (.unmap (.free 0) x above)
  | nothing {x i : ℕ} {above : List ℕ} (hi : i < s.pageCount x)
      (he : s.leaf (s.firstPage x + i) = .empty) :
      Goto roots s c (.unmap (.free i) x above) (.unmap (.free (i + 1)) x above)
  | freed {x i : ℕ} {above : List ℕ} (hi : s.pageCount x ≤ i) :
      Goto roots s c (.unmap (.free i) x above) (.unmap .unlock x above)

/-- A step of one of the cores, or of another client of the physical allocator. -/
inductive Step (roots : Finset ℕ) (s : VmarCores ι) : VmarCores ι → Prop
  | goto {c : ι} {q : VmarPc} (hg : Goto roots s c (s.pc c) q) : Step roots s (s.setPc c q)
  | lockShared {c : ι} {q : VmarPc} (hq : (s.pc c).beforeShared = some q) (hw : s.writer = false) :
      Step roots s { s.setPc c q with readers := s.readers + 1 }
  | unlockShared {c : ι} {q : VmarPc} (hq : (s.pc c).afterShared = some q) :
      Step roots s { s.setPc c q with readers := s.readers - 1 }
  | lockExclusive {c : ι} {q : VmarPc} (hq : (s.pc c).beforeExclusive = some q)
      (hr : s.readers = 0) (hw : s.writer = false) :
      Step roots s { s.setPc c q with writer := true }
  | unlockExclusive {c : ι} {q : VmarPc} (hq : (s.pc c).afterExclusive = some q) :
      Step roots s { s.setPc c q with writer := false }
  | lockMutex {c : ι} {x : ℕ} {q : VmarPc} (hq : (s.pc c).beforeMutex = some (x, q))
      (hm : s.pageTableLock x = false) : Step roots s ((s.setMutex x true).setPc c q)
  | unlockMutex {c : ι} {x : ℕ} {q : VmarPc} (hq : (s.pc c).afterMutex = some (x, q)) :
      Step roots s ((s.setMutex x false).setPc c q)
  | found {c : ι} {root page x : ℕ} (hp : s.pc c = .find root page) (hb : Below s.parent x root)
      (hk : s.kind x = .mapping) (hn : page ∈ s.pages x) :
      Step roots s ((s.objectGet x).setPc c (.findMutex x page))
  /-- `phys_alloc_reserved` -/
  | take {c : ι} {by_ : Populator} {x page stop f : ℕ} (hp : s.pc c = .populate by_ x page stop)
      (hn : page < stop) (he : ¬ (s.leaf page).Present) (hf : s.holder f = .allocator) :
      Step roots s ((s.setHolder f (.core c)).setPc c (.store by_ x page stop f))
  | store {c : ι} {by_ : Populator} {x page stop f : ℕ} (hp : s.pc c = .store by_ x page stop f) :
      Step roots s ((s.install page f).setPc c (.populate by_ x (page + 1) stop))
  | invalidate {c : ι} {x i f : ℕ} {above : List ℕ} (hp : s.pc c = .unmap (.invalidate i) x above)
      (hi : i < s.pageCount x) (hf : (s.leaf (s.firstPage x + i)).frame = some f) :
      Step roots s ((s.invalidate (s.firstPage x + i) f).setPc c
        (.unmap (.invalidate (i + 1)) x above))
  | free {c : ι} {x i f : ℕ} {above : List ℕ} (hp : s.pc c = .unmap (.free i) x above)
      (hi : i < s.pageCount x) (hf : (s.leaf (s.firstPage x + i)).frame = some f) :
      Step roots s ((s.freePage (s.firstPage x + i) f).setPc c (.unmap (.free (i + 1)) x above))
  | unlink {c : ι} {x : ℕ} {above : List ℕ} (hp : s.pc c = .unmap .unlink x above) :
      Step roots s ((s.unlink x).setPc c (.unmap .put x above))
  | putUnmapped {c : ι} {x : ℕ} {above : List ℕ} (hp : s.pc c = .unmap .put x above) :
      Step roots s ((s.objectPut x).setPc c (VmarPc.unmapped above))
  | putFault {c : ι} {x : ℕ} (hp : s.pc c = .faultPut x) :
      Step roots s ((s.objectPut x).setPc c .idle)
  | alloc {c : ι} {p x n : ℕ} {kind : VmarKind} (hp : s.pc c = .idle)
      (hpar : p ∈ roots ∨ 0 < s.handles c p) (hkp : s.kind p = .region) (hn : n ≠ 0)
      (hk : kind ≠ .special) (hx : x ∉ s.live) :
      Step roots s ((s.newVmar x kind).setPc c (.mapLock p x n))
  | place {c : ι} {p x first n : ℕ} (hp : s.pc c = .mapPlace p x n) (hu : s.unmapped p = false)
      (hf : s.Fits p first n) :
      Step roots s (((s.link x p first n).setHandles c x 1).setPc c .treeUnlock)
  /-- there is no place, or no memory for the page tables -/
  | noPlace {c : ι} {p x n : ℕ} (hp : s.pc c = .mapPlace p x n) :
      Step roots s (s.setPc c (.mapFail x))
  | freeNew {c : ι} {x : ℕ} (hp : s.pc c = .mapFree x) :
      Step roots s ((s.freeVmar x).setPc c .idle)
  | get {c : ι} {x : ℕ} (hp : s.pc c = .idle) (hh : 0 < s.handles c x) :
      Step roots s ((s.objectGet x).setHandles c x (s.handles c x + 1))
  | put {c : ι} {x : ℕ} (hp : s.pc c = .idle) (hh : 0 < s.handles c x) :
      Step roots s ((s.objectPut x).setHandles c x (s.handles c x - 1))
  /-- a core gets a handle from another one -/
  | pass {c e : ι} {x : ℕ} (hp : s.pc c = .idle) (hh : 0 < s.handles c x) (he : e ≠ c) :
      Step roots s ((s.setHandles c x (s.handles c x - 1)).setHandles e x (s.handles e x + 1))
  | otherTake {f : ℕ} (hf : s.holder f = .allocator) : Step roots s (s.setHolder f .other)
  | otherFree {f : ℕ} (hf : s.holder f = .other) : Step roots s (s.setHolder f .allocator)

/-- After the boot: the roots, and the special vmars in them. No page of a mapping is populated. -/
structure Initial (roots : Finset ℕ) (s : VmarCores ι) : Prop where
  idle : ∀ c, s.pc c = .idle
  handles : ∀ c x, s.handles c x = 0
  readers : s.readers = 0
  writer : s.writer = false
  mutex : ∀ x, s.pageTableLock x = false
  refCount : ∀ x ∈ s.live, s.refCount x = 1
  gone : ∀ x ∉ s.live, s.refCount x = 0
  live : ∀ x, x ∈ s.live ↔ x ∈ roots ∨ s.Linked x
  root : ∀ x ∈ roots, s.kind x = .region ∧ s.parent x = none ∧ s.unmapped x = false
  linked : ∀ x p, s.parent x = some p → p ∈ roots ∧ s.kind x = .special ∧ s.unmapped x = false
  inside : ∀ x p, s.parent x = some p → s.pages x ⊆ s.pages p
  siblings : ∀ x y p, s.parent x = some p → s.parent y = some p → x ≠ y →
    Disjoint (s.pages x) (s.pages y)
  apart : ∀ x ∈ roots, ∀ y ∈ roots, x ≠ y → Disjoint (s.pages x) (s.pages y)
  leaf : ∀ n, s.leaf n = .empty
  holder : ∀ f, s.holder f = .allocator ∨ s.holder f = .other
  frames : ∀ f, s.installed f = 0 ∧ s.freed f = 0

end VmarCores

end Tomato
