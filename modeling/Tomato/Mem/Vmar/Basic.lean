import Tomato.Lib.RbTree.LinkedTree
import Tomato.Mem.Virt.Basic

/-!
# The VMAR tree

The ranges of `mem/vmar.c`. A region has its children in a linked red black tree, in the
order of their addresses, and each child knows the gap before it.

The fields of the objects are maps from their addresses. `none` is a failed `ASSERT`, and
the error of a `CHECK` is a result. All sums and differences of page numbers are ones of
64 bits.
-/

namespace Tomato

open RbTree

inductive VmarKind
  | region
  | special
  | mapping
deriving DecidableEq

def VMAR_ANY_OFFSET : ℕ := 2 ^ 64 - 1

/-- The difference of two words. -/
def sub64 (x y : ℕ) : ℕ := (x + 2 ^ 64 - y) % 2 ^ 64

/-- The fields of all the objects of `vmar_t`. -/
structure Vmars where
  refCount : ℕ → ℕ
  base : ℕ → ℕ
  pageCount : ℕ → ℕ
  parent : ℕ → Option ℕ
  gap : ℕ → ℕ
  maxGap : ℕ → ℕ
  kind : ℕ → VmarKind
  unmapped : ℕ → Bool
  locked : ℕ → Bool
  prev : ℕ → Option ℕ
  next : ℕ → Option ℕ
  children : ℕ → RbTree.Tree ℕ
  leftmost : ℕ → Option ℕ
  pageTableLock : ℕ → Bool

namespace Vmars

variable (v : Vmars)

def vmarFirstPage (vmar : ℕ) : ℕ := v.base vmar >>> PAGE_SHIFT

def vmarEndPage (vmar : ℕ) : ℕ := (v.vmarFirstPage vmar + v.pageCount vmar) % 2 ^ 64

/-- The links of the children of a region. -/
def links (parent : ℕ) : LinkedNodes ℕ := ⟨v.prev, v.next, v.leftmost parent⟩

/-- The children of a region are changed. -/
def setChildren (parent : ℕ) (tree : RbTree.Tree ℕ) (links : LinkedNodes ℕ)
    (maxGap : ℕ → ℕ) : Vmars :=
  { v with
    children := Function.update v.children parent tree
    leftmost := Function.update v.leftmost parent links.leftmost
    prev := links.prev
    next := links.next
    maxGap := maxGap }

/-- The child is in the tree of its parent, and has no gap of its own yet. -/
def addChild (parent child : ℕ) (tree : RbTree.Tree ℕ) (links : LinkedNodes ℕ)
    (maxGap : ℕ → ℕ) : Vmars :=
  { v.setChildren parent tree links maxGap with
    gap := Function.update v.gap child 0
    parent := Function.update v.parent child (some parent) }

/-- `gap_start` of `vmar_gap_update`. -/
def gapStart (parent vmar : ℕ) : ℕ :=
  match v.prev vmar with
  | some prev => v.vmarEndPage prev
  | none => v.vmarFirstPage parent

def vmarGapUpdate (vmar : ℕ) : Option Vmars := do
  let parent ← v.parent vmar
  let gap := Function.update v.gap vmar (sub64 (v.vmarFirstPage vmar) (v.gapStart parent vmar))
  some { v with gap := gap, maxGap := propagateFrom gap vmar (v.children parent) v.maxGap }

/-- The update of the sibling after a vmar that came or went. -/
def vmarGapUpdateNext : Option ℕ → Option Vmars
  | some next => v.vmarGapUpdate next
  | none => some v

/-- The size of the gap after the last child, and its first page. -/
def vmarTailGap (parent : ℕ) : ℕ × ℕ :=
  let start := match last (v.children parent) with
    | some last => v.vmarEndPage last
    | none => v.vmarFirstPage parent
  (sub64 (v.vmarEndPage parent) start, start)

def vmarCompareRanges (a b : ℕ) : Ordering :=
  if v.vmarEndPage a ≤ v.vmarFirstPage b then .lt
  else if v.vmarFirstPage a ≥ v.vmarEndPage b then .gt
  else .eq

def vmarCheckInParent (parent child : ℕ) : Except TomatoErr Unit :=
  let endPage := v.vmarFirstPage child + v.pageCount child
  if 2 ^ 64 ≤ endPage then .error .internalError
  else if v.vmarFirstPage child < v.vmarFirstPage parent then .error .internalError
  else if v.vmarEndPage parent < endPage then .error .internalError
  else .ok ()

def vmarLinkInternal (parent child : ℕ) : Option Vmars :=
  if v.kind parent ≠ .region then none
  else if v.parent child ≠ none then none
  else do
    -- until we know who comes before us we contribute no gap at all
    let gap := Function.update v.gap child 0
    let maxGap := Function.update v.maxGap child 0
    match ← findAddLinked gap (v.vmarCompareRanges child) child (v.children parent)
      (v.links parent) maxGap with
    | .error _ => none
    | .ok (tree, links, maxGap) =>
      let v ← (v.addChild parent child tree links maxGap).vmarGapUpdate child
      v.vmarGapUpdateNext (v.next child)

def vmarLink (parent child : ℕ) : Option Vmars :=
  match v.vmarCheckInParent parent child with
  | .error _ => none
  | .ok () => v.vmarLinkInternal parent child

def vmarFindGap (parent pageCount : ℕ) : Option ℕ :=
  match findFirstFit (fun x => decide (pageCount ≤ v.gap x))
    (fun x => decide (pageCount ≤ v.maxGap x)) (v.children parent) with
  | some vmar => some (sub64 (v.vmarFirstPage vmar) (v.gap vmar))
  | none =>
    -- otherwise it may fit after the last child
    let (gap, gapStart) := v.vmarTailGap parent
    if pageCount ≤ gap then some gapStart else none

def setBase (vmar base : ℕ) : Vmars := { v with base := Function.update v.base vmar base }

def vmarFindPlace (parent child offset pageCount : ℕ) : Except TomatoErr Unit × Vmars :=
  if v.unmapped parent then (.error .internalError, v)
  else
    let v := { v with pageCount := Function.update v.pageCount child pageCount }
    if offset = VMAR_ANY_OFFSET then
      match v.vmarFindGap parent pageCount with
      | none => (.error .internalError, v)
      | some page => (.ok (), v.setBase child ((page <<< PAGE_SHIFT) % 2 ^ 64))
    else if offset &&& PAGE_MASK ≠ 0 then (.error .internalError, v)
    else if 2 ^ 64 ≤ v.base parent + offset then (.error .internalError, v)
    else
      let v := v.setBase child (v.base parent + offset)
      match v.vmarCheckInParent parent child with
      | .error e => (.error e, v)
      | .ok () =>
        -- it must not overlap any of the existing children
        if find (v.vmarCompareRanges child) (v.children parent) = none then (.ok (), v)
        else (.error .internalError, v)

def vmarAllocateStatic (parent child offset pageCount : ℕ) :
    Option (Except TomatoErr Unit × Vmars) :=
  if v.kind parent ≠ .region then some (.error .invalidArgument, v)
  else if pageCount = 0 then some (.error .invalidArgument, v)
  else match v.vmarFindPlace parent child offset pageCount with
    | (.error e, v) => some (.error e, v)
    | (.ok (), v) => (v.vmarLinkInternal parent child).map fun v => (.ok (), v)

def vmarAddressFindCmp (address vmar : ℕ) : Ordering :=
  let page := address >>> PAGE_SHIFT
  if page < v.vmarFirstPage vmar then .lt
  else if page ≥ v.vmarEndPage vmar then .gt
  else .eq

def vmarFindInternal (root address : ℕ) : Option (Option ℕ) :=
  if v.kind root ≠ .region then none
  else some (find (v.vmarAddressFindCmp address) (v.children root))

/-- The loop of `vmar_find_mapping`, for at most so many rounds. -/
def vmarFindLeaf (address : ℕ) : ℕ → ℕ → Option (Option ℕ)
  | 0, _ => none
  | fuel + 1, vmar => do
    match ← v.vmarFindInternal vmar address with
    | none => some none
    | some vmar =>
      if v.kind vmar = .region then vmarFindLeaf address fuel vmar else some (some vmar)

/-- `object_get`. -/
def objectGet (vmar : ℕ) : Vmars :=
  { v with refCount := Function.update v.refCount vmar (v.refCount vmar + 1) }

/-- `mutex_lock` on the lock of a mapping, which does not return while somebody holds it. -/
def lockPageTable (vmar : ℕ) : Option Vmars :=
  if v.pageTableLock vmar then none
  else some { v with pageTableLock := Function.update v.pageTableLock vmar true }

def unlockPageTable (vmar : ℕ) : Vmars :=
  { v with pageTableLock := Function.update v.pageTableLock vmar false }

def vmarFindMapping (fuel root address : ℕ) : Option (Option ℕ × Vmars) := do
  match ← v.vmarFindLeaf address fuel root with
  | none => some (none, v)
  | some vmar =>
    if v.kind vmar ≠ .mapping then some (none, v)
    else ((v.objectGet vmar).lockPageTable vmar).map fun v => (some vmar, v)

/-- The end of `vmar_unmap_internal`, which takes the vmar out of the tree. -/
def vmarUnlink (parent vmar : ℕ) : Option Vmars := do
  let next := v.next vmar
  let (tree, links, maxGap) ← eraseLinked v.gap vmar (v.children parent) (v.links parent) v.maxGap
  let v := v.setChildren parent tree links maxGap
  let v ← v.vmarGapUpdateNext next
  some { v with
    parent := Function.update v.parent vmar none
    unmapped := Function.update v.unmapped vmar true }

end Vmars

end Tomato
