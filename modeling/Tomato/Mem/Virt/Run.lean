import Tomato.Mem.Virt.Others

/-!
# The page table as a map

The page table of the boot code, and later of `mem/virt.c`, with all the steps that may be
taken on it: those of the boot code come first, the hand-over ends them. A range is freed
only after its pages were populated, that is, it has no page that was mapped at boot. The
other clients of the physical allocator do what they like with their own blocks.

`flatTable_of_reachable` says that in every reachable state the table is a map from page
numbers to entries, and that every step acts on this map as `FlatStep` says.
-/

namespace Tomato

open Blocks Radix Transition

inductive VirtCall
  | earlyMap (virt phys numPages flags : ℕ)
  | earlyMapBitmapPage (bitmapPtr : ℕ)
  | earlyAddMemory
  | makeGlobal (base pageCount : ℕ)
  | reservePageTables (base pageCount : ℕ)
  | populate (base pageCount : ℕ) (globalPage : Bool)
  | free (base pageCount : ℕ)
  | client (c : Call)

/-- The page table and the allocators. After the hand-over, `bootPages` are the pages that
were mapped before it. -/
structure VirtState where
  boot : Boot
  pageTable : ℕ
  handedOver : Bool
  bootPages : Set ℕ

namespace VirtState

variable (d : DirectMap) (entries : Memmap) (st : VirtState)

def phys : Phys := st.boot.clients.phys

def setPhys (s : Phys) : VirtState :=
  { st with boot := { st.boot with clients := { st.boot.clients with phys := s } } }

/-- The page table as a map from page numbers to entries. -/
def flatMap (n : ℕ) : ℕ := leafEntry d st.phys.mem st.pageTable n

def exec : VirtCall → Option VirtState
  | .earlyMap virt phys numPages flags =>
      (st.boot.earlyVirtMap d entries st.pageTable virt phys numPages flags).map fun b =>
        { st with boot := b }
  | .earlyMapBitmapPage bitmapPtr =>
      (st.boot.earlyMapBitmapPage d entries st.pageTable bitmapPtr).map fun b =>
        { st with boot := b }
  | .earlyAddMemory => (st.boot.earlyPhysAddMemory d entries).map fun b =>
      { st with boot := b, handedOver := true, bootPages := {n | st.flatMap d n ≠ 0} }
  | .makeGlobal base pageCount =>
      (st.phys.virtMakeGlobal d st.pageTable base pageCount).map st.setPhys
  | .reservePageTables base pageCount =>
      (st.phys.virtReservePageTables d st.pageTable base pageCount).map fun r => st.setPhys r.2
  | .populate base pageCount globalPage =>
      (st.phys.virtPopulate d st.pageTable base pageCount globalPage).map st.setPhys
  | .free base pageCount => (st.phys.virtFree d st.pageTable base pageCount).map st.setPhys
  | .client c => (st.boot.clients.exec d c).map fun t =>
      { st with boot := { st.boot with clients := t } }

/-- When a call may be made. -/
def Valid : VirtCall → Prop
  | .earlyMap _ phys _ _ => st.handedOver = false ∧ phys < 2 ^ 64
  | .earlyMapBitmapPage _ | .earlyAddMemory => st.handedOver = false
  | .makeGlobal _ _ | .reservePageTables _ _ | .populate _ _ _ => st.handedOver = true
  | .free base pageCount => st.handedOver = true ∧ ∀ n ∈ rangeOf base pageCount, n ∉ st.bootPages
  | .client c => st.handedOver = true ∧ c.Later ∧ st.boot.clients.Valid d c

/-- The page table is the first page of the early allocator. -/
def Initial : Prop :=
  st.handedOver = false ∧
    ∃ b : Boot, b.Initial d ∧ b.earlyPhysAllocPage d entries = some (st.pageTable, st.boot)

def Step (st st' : VirtState) : Prop := ∃ c, st.Valid d c ∧ st.exec d entries c = some st'

/-- The entries of the pages in `W` may change. -/
def Outside (W : Set ℕ) (f f' : ℕ → ℕ) : Prop := ∀ n < 2 ^ 36, n ∉ W → f' n = f n

/-- What a call does to the map. -/
def FlatStep : VirtCall → (ℕ → ℕ) → (ℕ → ℕ) → Prop
  | .earlyMap virt phys numPages flags, f, f' => Outside (rangeOf virt numPages) f f' ∧
      ∀ i < numPages, f (pageNumber (pageAddr virt i)) = 0 ∧
        f' (pageNumber (pageAddr virt i)) = Boot.mappedEntry ((phys + i * PAGE_SIZE) % 2 ^ 64) flags
  | .earlyMapBitmapPage bitmapPtr, f, f' => Outside {pageNumber bitmapPtr} f f' ∧
      ((f (pageNumber bitmapPtr) &&& IA32_PG_P ≠ 0 ∧
        f' (pageNumber bitmapPtr) = f (pageNumber bitmapPtr)) ∨
      ∃ x ∈ Memmap.usablePages entries, f' (pageNumber bitmapPtr) = x ||| Boot.bitmapFlags)
  | .makeGlobal base pageCount, f, f' => Outside (rangeOf base pageCount) f f' ∧
      ∀ n ∈ rangeOf base pageCount, f' n = Phys.withGlobal (f n)
  | .populate base pageCount globalPage, f, f' => Outside (rangeOf base pageCount) f f' ∧
      ∀ n ∈ rangeOf base pageCount,
        Phys.Populated d globalPage (virtIsUserAddress base) (f n) (f' n)
  | .free base pageCount, f, f' => Outside (rangeOf base pageCount) f f' ∧
      ∀ n ∈ rangeOf base pageCount, f' n = 0
  | .earlyAddMemory, f, f' | .reservePageTables _ _, f, f' | .client _, f, f' => Outside ∅ f f'

/-- What holds in every reachable state. -/
def Good : Prop :=
  if st.handedOver then st.boot.clients.VirtOk d st.pageTable st.bootPages
  else ∃ xs, EarlyOk d entries st.pageTable st.boot xs

variable {d entries st}

theorem good_of_initial (hv : entries.Valid) (hd : entries.HasDirectMap d)
    (hk : KERNEL_REGION_BASE ≤ d.base) (h : st.Initial d entries) : st.Good d entries := by
  obtain ⟨hl, b, h0, he⟩ := h
  obtain ⟨x, xs, -, hok, -⟩ := EarlyOk.start hv hd hk h0 he
  rw [Good, hl]
  exact ⟨xs, hok⟩

theorem Good.early (h : st.Good d entries) (hl : st.handedOver = false) :
    ∃ xs, EarlyOk d entries st.pageTable st.boot xs := by
  rwa [Good, hl] at h

theorem Good.late (h : st.Good d entries) (hl : st.handedOver = true) :
    st.boot.clients.VirtOk d st.pageTable st.bootPages := by
  rwa [Good, hl] at h

theorem good_early {b : Boot} {xs : List ℕ} (hl : st.handedOver = false)
    (h : EarlyOk d entries st.pageTable b xs) : Good d entries { st with boot := b } := by
  simp only [Good, hl]
  exact ⟨xs, h⟩

theorem good_late {t : Clients} (hl : st.handedOver = true)
    (h : t.VirtOk d st.pageTable st.bootPages) :
    Good d entries { st with boot := { st.boot with clients := t } } := by
  simp only [Good, hl, if_true]
  exact h

/-- Every step keeps the invariant and acts on the map of entries. -/
theorem good_exec {c : VirtCall} {st' : VirtState} (h : st.Good d entries) (hv : st.Valid d c)
    (he : st.exec d entries c = some st') :
    st'.Good d entries ∧ FlatStep d entries c (st.flatMap d) (st'.flatMap d) := by
  cases c with
  | earlyMap virt phys numPages flags =>
      obtain ⟨hl, hphys⟩ := hv
      obtain ⟨xs, hok⟩ := h.early hl
      obtain ⟨b, e, rfl⟩ := Option.map_eq_some_iff.mp he
      obtain ⟨⟨xs', ht⟩, hall⟩ := hok.earlyVirtMap hphys e
      exact ⟨good_early hl ht.ok, ht.leaf, hall⟩
  | earlyMapBitmapPage bitmapPtr =>
      obtain ⟨xs, hok⟩ := h.early hv
      obtain ⟨b, e, rfl⟩ := Option.map_eq_some_iff.mp he
      obtain ⟨xs', ht, -, hpage⟩ := hok.earlyMapBitmapPage e
      refine ⟨good_early hv ht.ok, ht.leaf, hpage.imp id ?_⟩
      rintro ⟨x, hx, -, -, hval⟩
      exact ⟨x, hx, hval⟩
  | earlyAddMemory =>
      obtain ⟨xs, hok⟩ := h.early hv
      obtain ⟨b, e, hlive, hleaf, -, -, fl, hvirt⟩ := hok.earlyPhysAddMemory
      simp only [exec, e, Option.map_some, Option.some.injEq] at he
      subst he
      refine ⟨⟨by simp [hlive], fl, ∅, ?_⟩, fun n hn _ => hleaf n hn⟩
      have hls : b.clients.liveSet = ∅ := by simp [Clients.liveSet, hlive]
      simp only [hls]
      exact hvirt
  | makeGlobal base pageCount =>
      obtain ⟨hnd, fl, live, hok⟩ := h.late hv
      obtain ⟨s, e, rfl⟩ := Option.map_eq_some_iff.mp he
      obtain ⟨fl', live', ht, hall⟩ := hok.virtMakeGlobal e
      exact ⟨good_late hv ⟨hnd, fl', live', ht.ok⟩, ht.leaf, hall⟩
  | reservePageTables base pageCount =>
      obtain ⟨hnd, fl, live, hok⟩ := h.late hv
      obtain ⟨r, s, live', e, hres, -⟩ := hok.virtReservePageTables base pageCount
      obtain ⟨fl', hok'⟩ := hres.ok
      simp only [exec, phys, e, Option.map_some, Option.some.injEq] at he
      subst he
      exact ⟨good_late hv ⟨hnd, fl', live', hok'⟩, fun n hn _ => hres.leaf n hn⟩
  | populate base pageCount globalPage =>
      obtain ⟨hnd, fl, live, hok⟩ := h.late hv
      obtain ⟨s, e, rfl⟩ := Option.map_eq_some_iff.mp he
      obtain ⟨fl', live', ht, hall⟩ := hok.virtPopulate e
      exact ⟨good_late hv ⟨hnd, fl', live', ht.ok⟩, ht.leaf, hall⟩
  | free base pageCount =>
      obtain ⟨hl, hb⟩ := hv
      obtain ⟨hnd, fl, live, hok⟩ := h.late hl
      obtain ⟨s, e, rfl⟩ := Option.map_eq_some_iff.mp he
      obtain ⟨fl', live', ht, hall⟩ := hok.virtFree hb e
      exact ⟨good_late hl ⟨hnd, fl', live', ht.ok⟩, ht.leaf, hall⟩
  | client c =>
      obtain ⟨hl, hc, hvalid⟩ := hv
      obtain ⟨t, e, rfl⟩ := Option.map_eq_some_iff.mp he
      obtain ⟨hok, hleaf⟩ := (h.late hl).exec hvalid hc e
      exact ⟨good_late hl hok, fun n hn _ => (hleaf n hn).2⟩

theorem good_of_reachable (hv : entries.Valid) (hd : entries.HasDirectMap d)
    (hk : KERNEL_REGION_BASE ≤ d.base)
    (h : Reachable (Initial d entries) (Step d entries) st) : st.Good d entries :=
  h.invariant (fun _ h0 => good_of_initial hv hd hk h0) fun _ _ hg ⟨_, hv, he⟩ =>
    (good_exec hg hv he).1

theorem Good.tables (h : st.Good d entries) : TablesOk d st.phys.mem st.pageTable := by
  cases hl : st.handedOver with
  | false =>
      obtain ⟨xs, hok⟩ := h.early hl
      exact hok.tables
  | true =>
      obtain ⟨-, fl, live, hok⟩ := h.late hl
      exact hok.tables

/-- The page table is a map from page numbers to entries. -/
structure FlatTable (d : DirectMap) (entries : Memmap) (st : VirtState) : Prop where
  getPte : st.handedOver = true → ∀ virt virt' alloc alloc' p p' s s',
    st.phys.virtGetPte d st.pageTable virt alloc = some (some p, s) →
      s.virtGetPte d st.pageTable virt' alloc' = some (some p', s') →
        (p = p' ↔ pageNumber virt = pageNumber virt')
  earlyGetPte : st.handedOver = false → ∀ virt virt' p p' b b',
    st.boot.earlyVirtGetPte d entries st.pageTable virt = some (p, b) →
      b.earlyVirtGetPte d entries st.pageTable virt' = some (p', b') →
        (p = p' ↔ pageNumber virt = pageNumber virt')
  entry : ∀ virt p s, st.phys.virtFindPte d st.pageTable virt = some (p, s) →
    s.mem p = st.flatMap d (pageNumber virt)
  step : ∀ c st', st.Valid d c → st.exec d entries c = some st' →
    FlatStep d entries c (st.flatMap d) (st'.flatMap d)

theorem getPte_slot {s s' : Phys} {root virt p : ℕ} {alloc : Bool} {fl : FreeLists}
    {live others : Set Block} {M boot : Set ℕ} {early : ℕ}
    (h : s.VirtOk d root fl live M early others boot)
    (he : s.virtGetPte d root virt alloc = some (some p, s')) :
    ∃ fl' live', Phys.Grown d root s s' fl' live live' M early others boot ∧
      slot d s'.mem root (pageNumber virt) = some p := by
  cases alloc with
  | true =>
      obtain ⟨r, s1, fl', live', e, hg, hr⟩ := h.virtGetPte_alloc virt
      obtain ⟨rfl, rfl⟩ := Prod.mk.inj (Option.some.inj (e.symm.trans he))
      exact ⟨fl', live', hg, hr p rfl⟩
  | false =>
      rw [Phys.virtGetPte, show PAGE_TABLE_LEVELS - 1 = 3 from rfl,
        Phys.virtWalk_false le_rfl (Phys.walkTable_top _)] at he
      obtain ⟨q, hq, he⟩ := Option.map_eq_some_iff.mp he
      obtain ⟨hqp, rfl⟩ := Prod.mk.inj he
      exact ⟨fl, live, .refl h, hq.trans hqp⟩

/-- Slots that are equal are those of one page. -/
theorem slot_eq_iff {m : Memory} {root n n' p p' : ℕ} (h : TablesOk d m root) (hn : n < 2 ^ 36)
    (hn' : n' < 2 ^ 36) (hs : slot d m root n = some p) (hs' : slot d m root n' = some p') :
    p = p' ↔ n = n' := by
  constructor
  · rintro rfl
    exact h.slot_inj hn hn' hs hs'
  · rintro rfl
    exact Option.some.inj (hs.symm.trans hs')

/-- In every reachable state the page table is a map from page numbers to entries, and
every call changes the entries of its own range only. -/
theorem flatTable_of_reachable (hv : entries.Valid) (hd : entries.HasDirectMap d)
    (hk : KERNEL_REGION_BASE ≤ d.base)
    (h : Reachable (Initial d entries) (Step d entries) st) : FlatTable d entries st := by
  have hg := good_of_reachable hv hd hk h
  refine ⟨fun hl virt virt' alloc alloc' p p' s s' he he' => ?_,
    fun hl virt virt' p p' b b' he he' => ?_, fun virt p s he => ?_,
    fun c st' hc he => (good_exec hg hc he).2⟩
  · obtain ⟨-, fl, live, hok⟩ := hg.late hl
    obtain ⟨fl1, live1, hg1, hs⟩ := getPte_slot hok he
    obtain ⟨fl2, live2, hg2, hs'⟩ := getPte_slot hg1.ok he'
    exact slot_eq_iff hg2.ok.tables (pageNumber_lt _) (pageNumber_lt _)
      (hg2.slot (pageNumber_lt _) hs) hs'
  · obtain ⟨xs, hok⟩ := hg.early hl
    rcases hok.getPte virt with ⟨e, -⟩ | ⟨q, b1, xs1, e, ht1, -, hs⟩
    · simp [e] at he
    obtain ⟨rfl, rfl⟩ := Prod.mk.inj (Option.some.inj (e.symm.trans he))
    rcases ht1.ok.getPte virt' with ⟨e', -⟩ | ⟨q', b2, xs2, e', ht2, -, hs'⟩
    · simp [e'] at he'
    obtain ⟨rfl, rfl⟩ := Prod.mk.inj (Option.some.inj (e'.symm.trans he'))
    exact slot_eq_iff ht2.ok.tables (pageNumber_lt _) (pageNumber_lt _)
      (ht2.slot (pageNumber_lt _) hs) hs'
  · obtain ⟨hs, rfl⟩ := Phys.virtFindPte_some he
    exact (Phys.leafEntry_of_slot hs).symm

/-- Eight usable pages above the first megabyte. -/
def eightPages : Memmap := [⟨0x100000, 0x8000, .usable⟩]

def eightPagesMap : DirectMap where
  base := 0xFFFF800000000000
  pageCount := 0x108
  levels := 0
  base_pos := by decide
  base_aligned := ⟨0x7FFFC000000, rfl⟩
  top := by decide
  levels_outside := Or.inl (by decide)

theorem eightPages_valid : eightPages.Valid where
  sorted := by simp [eightPages]
  base_dvd := by decide
  length_dvd := by decide
  pos := by decide

/-- The first of the pages is mapped into the direct map, and then the memory is handed
over. -/
theorem exists_reachable_eightPages :
    ∃ st, Reachable (Initial eightPagesMap eightPages) (Step eightPagesMap eightPages) st ∧
      st.handedOver = true ∧ st.flatMap eightPagesMap (pageNumber 0xFFFF800000100000) ≠ 0 ∧
      ∀ n < 2 ^ 36, n ≠ pageNumber 0xFFFF800000100000 →
        st.flatMap eightPagesMap n = 0 ∧ n ∉ st.bootPages := by
  have hd : eightPages.HasDirectMap eightPagesMap := show 0x108 = 0x108000 / PAGE_SIZE by decide
  have hkernel : KERNEL_REGION_BASE ≤ eightPagesMap.base := le_rfl
  obtain ⟨b, e0, -⟩ := Watermark.earlyPhysAllocPage (d := eightPagesMap) (b := emptyBoot)
    eightPages_valid (show Watermark eightPages ⟨0, 0, 0⟩ (0x100000 :: _) from .start)
  obtain ⟨x, xs, hxs, hok, hzero⟩ :=
    EarlyOk.start eightPages_valid hd hkernel (emptyBoot_initial _) e0
  have hlen : 3 ≤ xs.length := by
    have : (Memmap.usablePages eightPages).length = 8 := by decide
    rw [hxs, List.length_cons] at this
    omega
  let st0 : VirtState := ⟨b, eightPagesMap.physToDirect 0x100000, false, ∅⟩
  have h0 : Reachable (Initial eightPagesMap eightPages) (Step eightPagesMap eightPages) st0 :=
    .start ⟨rfl, emptyBoot, emptyBoot_initial _, e0⟩
  -- the page is mapped
  obtain ⟨⟨next, b1⟩, e1⟩ := hok.earlyVirtMapPage_isSome hlen
    (hzero (pageNumber (pageAddr 0xFFFF800000100000 0)) (pageNumber_lt _))
    0x100000 (IA32_PG_RW ||| IA32_PG_D ||| IA32_PG_NX)
  obtain ⟨-, -, hval, xs1, ht1, -⟩ := hok.earlyVirtMapPage e1
  have he1 : st0.exec eightPagesMap eightPages (.earlyMap 0xFFFF800000100000 0x100000 1
      (IA32_PG_RW ||| IA32_PG_D ||| IA32_PG_NX)) = some { st0 with boot := b1 } := by
    simp only [exec, Boot.earlyVirtMap, forPages, Option.bind_some, st0, e1, Option.map_some]
  have h1 := h0.next ⟨.earlyMap 0xFFFF800000100000 0x100000 1
    (IA32_PG_RW ||| IA32_PG_D ||| IA32_PG_NX), ⟨rfl, by decide⟩, he1⟩
  -- the memory is handed over
  obtain ⟨b2, e2, -, hleaf, -⟩ := ht1.ok.earlyPhysAddMemory
  let st1 : VirtState := { st0 with boot := b1 }
  have he2 : st1.exec eightPagesMap eightPages .earlyAddMemory = some { st1 with
      boot := b2, handedOver := true, bootPages := {n | st1.flatMap eightPagesMap n ≠ 0} } := by
    simp only [exec, st1, st0, e2, Option.map_some]
  have hpage : pageNumber 0xFFFF800000100000 = pageNumber (pageAddr 0xFFFF800000100000 0) := rfl
  rw [hpage]
  refine ⟨_, h1.next ⟨.earlyAddMemory, rfl, he2⟩, rfl, fun hc => ?_, fun n hn hne => ?_⟩
  · exact mappedEntry_ne_zero (hval.symm.trans ((hleaf _ (pageNumber_lt _)).symm.trans hc))
  · have h0 : st1.flatMap eightPagesMap n = 0 := (ht1.leaf n hn hne).trans (hzero n hn)
    exact ⟨(hleaf n hn).trans h0, fun hc => hc h0⟩

theorem flatTable_eightPages :
    ∃ st, st.handedOver = true ∧ st.flatMap eightPagesMap (pageNumber 0xFFFF800000100000) ≠ 0 ∧
      FlatTable eightPagesMap eightPages st := by
  obtain ⟨st, h, hl, hne, -⟩ := exists_reachable_eightPages
  exact ⟨st, hl, hne, flatTable_of_reachable eightPages_valid
    (show 0x108 = 0x108000 / PAGE_SIZE by decide) le_rfl h⟩

end VirtState

end Tomato
