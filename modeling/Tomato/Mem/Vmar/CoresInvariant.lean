import Tomato.Mem.Vmar.Cores

/-!
# What holds between the steps of the cores

The locks are held by those whose steps are between taking them and giving them back, and the
reference count of a vmar is the number of those who have it. `PcOk` is what a core relies on
while others take their steps: the vmars that are `pinned` keep their places in the tree.
-/

namespace Tomato

open Forest Tally

/-- How many entries have the frame. -/
def FrameHolder.entries {ι : Type*} : FrameHolder ι → ℕ
  | .page _ => 1
  | _ => 0

namespace VmarPc

/-- The vmars that the core goes on with. -/
def vmars : VmarPc → List ℕ
  | .findMutex x _ | .findUnlock x _ | .populateLock x | .populateMutex x | .populateCheck x => [x]
  | .populate _ x _ _ | .store _ x _ _ _ | .populateUnlock _ x | .faultPut x => [x]
  | .mapLock p x _ | .mapPlace p x _ => [p, x]
  | .mapFail x | .mapFree x | .unmapLock x | .unmapCheck x => [x]
  | .unmap _ x above => x :: above
  | _ => []

/-- Those that nobody else may link or unlink. -/
def pinned : VmarPc → List ℕ
  | .findMutex x _ | .findUnlock x _ | .populate _ x _ _ | .store _ x _ _ _ => [x]
  | .mapLock _ x _ | .mapPlace _ x _ | .mapFail x | .mapFree x => [x]
  | .unmap _ x above => x :: above
  | _ => []

/-- The core is in `virt_free` on the mapping. -/
def Frees (x : ℕ) : VmarPc → Prop
  | .unmap (.invalidate _) y _ | .unmap (.free _) y _ => y = x
  | _ => False

end VmarPc

namespace VmarCores

variable {ι : Type*} (roots : Finset ℕ) (s : VmarCores ι)

/-- The pages of a mapping that is in the tree. -/
structure Covers (x page stop : ℕ) : Prop where
  linked : s.Linked x
  kind : s.kind x = .mapping
  pages : Set.Ico page stop ⊆ s.pages x

/-- A vmar that was allocated, and is not in the tree yet. -/
structure New (x : ℕ) : Prop where
  root : x ∉ roots
  unlinked : s.parent x = none
  childless : ∀ y, s.parent y ≠ some x
  unmapped : s.unmapped x = false
  kind : s.kind x ≠ .special
  refCount : s.refCount x = 2

/-- The regions above a vmar, up to the one that the call is about. -/
def Path : ℕ → List ℕ → Prop
  | x, [] => s.Linked x ∧ s.kind x ≠ .special
  | x, p :: above => s.parent x = some p ∧ Path p above

def PathAbove : List ℕ → Prop
  | [] => True
  | p :: above => s.Path p above

/-- What `vmar_unmap_internal` knows of the leaf entries of the vmar. -/
def UnmapOk (x : ℕ) (above : List ℕ) : UnmapPhase → Prop
  | .enter => s.Path x above
  | .lock => s.Path x above ∧ s.kind x = .mapping
  | .invalidate i => s.Path x above ∧ s.kind x = .mapping ∧ ∀ n ∈ s.pages x,
      (n < s.firstPage x + i → ¬ (s.leaf n).Present) ∧
        (s.firstPage x + i ≤ n → ¬ (s.leaf n).Stale)
  | .free i => s.Path x above ∧ s.kind x = .mapping ∧ ∀ n ∈ s.pages x,
      (n < s.firstPage x + i → s.leaf n = .empty) ∧ ¬ (s.leaf n).Present
  | .unlock => s.Path x above ∧ s.kind x = .mapping ∧ ∀ n ∈ s.pages x, s.leaf n = .empty
  | .unlink => s.Path x above ∧ (∀ y, s.parent y ≠ some x) ∧ s.pageTableLock x = false ∧
      (s.kind x = .mapping → ∀ n ∈ s.pages x, s.leaf n = .empty)
  | .put => s.parent x = none ∧ s.unmapped x = true ∧ s.PathAbove above

/-- What the core `c` relies on before its next step. -/
def PcOk (c : ι) : VmarPc → Prop
  | .findLock root _ | .find root _ => root ∈ roots
  | .findMutex x n | .findUnlock x n => s.Covers x n (n + 1)
  | .populateLock x | .populateMutex x | .populateCheck x =>
      s.kind x = .mapping ∧ 0 < s.handles c x
  | .populate w x n stop => s.Covers x n stop ∧ (w = .populate → 0 < s.handles c x)
  | .store w x n stop f => s.Covers x n stop ∧ (w = .populate → 0 < s.handles c x) ∧ n < stop ∧
      s.leaf n = .empty ∧ s.holder f = .core c
  | .populateUnlock w x => s.kind x = .mapping ∧ (w = .populate → 0 < s.handles c x)
  | .mapLock p x n | .mapPlace p x n => s.New roots x ∧ (p ∈ roots ∨ 0 < s.handles c p) ∧
      s.kind p = .region ∧ n ≠ 0
  | .mapFail x | .mapFree x => s.New roots x
  | .unmapLock x | .unmapCheck x => 0 < s.handles c x
  | .unmap phase x above => s.UnmapOk x above phase
  | _ => True

structure TreeOk : Prop where
  ranked : ∃ rank, Ranked s.parent rank
  nested : Nested s.parent s.pages
  parent : ∀ x p, s.parent x = some p → s.kind p = .region ∧ (p ∈ roots ∨ s.Linked p)
  linked : ∀ x, s.Linked x → x ∉ roots ∧ s.unmapped x = false
  rooted : ∀ x, s.Linked x → ∃ r ∈ roots, Below s.parent x r
  root : ∀ r ∈ roots, s.kind r = .region ∧ s.unmapped r = false
  apart : ∀ x ∈ roots, ∀ y ∈ roots, x ≠ y → Disjoint (s.pages x) (s.pages y)
  special : ∀ x p, s.parent x = some p → s.kind x = .special → p ∈ roots

/-- How many references the tree has to a vmar. The boot code has the one to a root. -/
def treeRefs (x : ℕ) : ℕ := if x ∈ roots ∨ s.Linked x then 1 else 0

structure LeavesOk : Prop where
  covered : ∀ n, s.leaf n ≠ .empty → ∃ x, s.Covers x n (n + 1)
  stale : ∀ n, (s.leaf n).Stale → ∃ c x, (s.pc c).Frees x ∧ n ∈ s.pages x

structure FramesOk : Prop where
  leaf : ∀ n f, (s.leaf n).frame = some f ↔ s.holder f = .page n
  core : ∀ f c, s.holder f = .core c → ∃ w x n stop, s.pc c = .store w x n stop f
  count : ∀ f, s.installed f = s.freed f + (s.holder f).entries

/-- The words of the locks. -/
structure LocksOk [Fintype ι] : Prop where
  readers : s.readers = tally VmarPc.shared s.pc
  writer : s.writer.toNat = tally VmarPc.exclusive s.pc
  apart : s.writer = true → s.readers = 0
  mutex : ∀ x, (s.pageTableLock x).toNat = tally (VmarPc.mutexes x) s.pc

structure RefsOk [Fintype ι] : Prop where
  refs : ∀ x, s.refCount x = s.treeRefs roots x +
    (tally (fun h => h x) s.handles + tally (VmarPc.refs x) s.pc)
  live : ∀ x, x ∈ s.live ↔ s.refCount x ≠ 0
  handle : ∀ c x, 0 < s.handles c x → x ∉ roots ∧ s.kind x ≠ .special
  unlinked : ∀ x ∈ s.live, x ∉ roots → s.parent x = none → s.unmapped x = false →
    ∃ c, (s.pc c).made = some x

structure Inv [Fintype ι] : Prop where
  locks : s.LocksOk
  refs : s.RefsOk roots
  tree : s.TreeOk roots
  pcs : ∀ c, s.PcOk roots c (s.pc c)
  leaves : s.LeavesOk
  frames : s.FramesOk

end VmarCores

end Tomato
