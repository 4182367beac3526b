import Tomato.Lib.Reachable
import Tomato.Mem.Phys.Calls

/-!
# Runs of the physical allocator

The clients of the allocator make one call after the other. They free only blocks
they were handed out, with a size of the same level, add only whole pages that
were not added before, and write only to the blocks they hold. `exec` is the call
itself, `none` when an assertion fails.

`partition_of_reachable` and `pages_of_reachable` are what holds between any two
calls of any run.
-/

namespace Tomato

open Blocks Transition

/-- A call to the allocator or to its accounting, or a write of a client. -/
inductive Call
  | addMemory (start end_ : ℕ)
  | addCommitted (pageCount : ℕ)
  | alloc (size : ℕ)
  | allocReserved (size : ℕ)
  | free (ptr size : ℕ)
  | freeReserved (ptr size : ℕ)
  | reserve (pageCount : ℕ)
  | unreserve (pageCount : ℕ)
  | write (b : Block) (content : ℕ → ℕ)

/-- The allocator together with what its clients know: the blocks they hold, the
ranges that were added, and the pages that were accounted before. -/
structure Clients where
  phys : Phys
  live : List Block
  ranges : List (ℕ × ℕ)
  early : ℕ

namespace Clients

variable (d : DirectMap)

def liveSet (t : Clients) : Set Block := {b | b ∈ t.live}

/-- The addresses that were added. -/
def added (t : Clients) : Set ℕ := {a | ∃ r ∈ t.ranges, a ∈ Set.Ico r.1 r.2}

/-- The clients hold the block that was returned. -/
def handOut (t : Clients) (size : ℕ) : Option ℕ × Phys → Clients
  | (none, s) => { t with phys := s }
  | (some p, s) =>
    { t with phys := s, live := block p ((getLevelBySize size).getD 0) :: t.live }

/-- The clients do not hold the block any more. -/
def takeBack (t : Clients) (ptr size : ℕ) (s : Phys) : Clients :=
  { t with phys := s, live := t.live.erase (block ptr ((getLevelBySize size).getD 0)) }

def setAcct (t : Clients) (a : Accounting) : Clients :=
  { t with phys := { t.phys with acct := a } }

def exec (t : Clients) : Call → Option Clients
  | .addMemory start end_ => (t.phys.physAddMemory d start end_).map fun s =>
      { t with phys := s, ranges := (start, end_) :: t.ranges }
  | .addCommitted n =>
      some { t.setAcct (t.phys.acct.memAcctAddCommitted n) with early := t.early + n }
  | .alloc size => (t.phys.physAlloc d size).map (t.handOut size)
  | .allocReserved size => (t.phys.physAllocReserved d size).map (t.handOut size)
  | .free ptr size => (t.phys.physFree d ptr size).map (t.takeBack ptr size)
  | .freeReserved ptr size => (t.phys.physFreeReserved d ptr size).map (t.takeBack ptr size)
  | .reserve n => some (t.setAcct (t.phys.acct.memAcctReserve n).2)
  | .unreserve n => (t.phys.acct.memAcctUnreserve n).map t.setAcct
  | .write b content => some { t with phys := { t.phys with
      mem := fun a => if b.addr ≤ a ∧ a < b.addr + 2 ^ b.order then content a else t.phys.mem a } }

/-- What the clients promise when they make the call. -/
def Valid (t : Clients) : Call → Prop
  | .addMemory start end_ => 4096 ∣ start ∧ 4096 ∣ end_ ∧ start ≤ end_ ∧
      d.base ≤ start ∧ end_ ≤ d.base + d.pageCount * 4096 ∧
      Disjoint (Set.Ico start end_) t.added
  | .free ptr size | .freeReserved ptr size =>
      ptr = 0 ∨ ∃ l, getLevelBySize size = some l ∧ block ptr l ∈ t.live
  | .write b _ => b ∈ t.live
  | _ => True

/-- The reservation that a call uses up is there, and the size of a call about
reserved pages is one of a block of pages. -/
def Backed (t : Clients) : Call → Prop
  | .allocReserved size =>
      ∃ l, getPageLevelBySize size = some l ∧ 2 ^ (l - 6) ≤ t.phys.acct.reserved
  | .freeReserved _ size => (getPageLevelBySize size).isSome
  | .unreserve n => n ≤ t.phys.acct.reserved
  | _ => True

/-- The state before the first call: empty lists, an empty bitmap and no pages. -/
def Initial (t : Clients) : Prop :=
  (∀ l < 16, t.phys.mem (d.head l) = 0) ∧ (∀ i, t.phys.bitmap i = 0) ∧
    t.phys.acct = ⟨0, 0, 0, 0⟩ ∧ t.live = [] ∧ t.ranges = [] ∧ t.early = 0

def Step (t t' : Clients) : Prop := ∃ c, Valid d t c ∧ exec d t c = some t'

/-- The invariant of the run. -/
def Good (t : Clients) : Prop :=
  t.live.Nodup ∧ ∃ fl, t.phys.Ok d fl t.liveSet t.added t.early

variable {d : DirectMap} {t t' : Clients} {c : Call}

theorem good_of_initial (h : Initial d t) : Good d t := by
  obtain ⟨hmem, hbit, hacct, hlive, hranges, hearly⟩ := h
  have hadd : t.added = ∅ := by simp [added, hranges]
  have hls : t.liveSet = ∅ := by simp [liveSet, hlive]
  have hfree : freeBlocks (fun _ => []) = ∅ := by simp [freeBlocks]
  refine ⟨by simp [hlive], fun _ => [], ?_, ?_, ?_, ?_⟩
  · rw [hadd, hls]
    refine ⟨hmem, fun _ _ => rfl, by simp, by simp, by simp, ?_, ?_, ?_, ?_, by simp, by simp,
      by simp, ?_, by simp⟩
    · rw [hfree]
      simpa using Tiling.empty
    · rw [hfree]
      simp
    · simp
    · simp
    · intro a _ _ _
      rw [Phys.buddyIsBlockFree_eq, hbit]
      simp
  · simp [freePages, hacct]
  · simp [hacct, hearly, hadd, marks]
  · simp [Accounting.Balanced, hacct]

theorem liveSet_handOut (p size : ℕ) (s : Phys) {l : ℕ} (hl : getLevelBySize size = some l) :
    (t.handOut size (some p, s)).liveSet = t.liveSet ∪ {block p l} := by
  ext b
  simp [liveSet, handOut, hl, or_comm]

theorem liveSet_takeBack (hn : t.live.Nodup) (p size : ℕ) (s : Phys) {l : ℕ}
    (hl : getLevelBySize size = some l) :
    (t.takeBack p size s).liveSet = t.liveSet \ {block p l} := by
  ext b
  simp [liveSet, takeBack, hl, hn.mem_erase_iff, and_comm]

/-- A block that was handed out is new to the clients. -/
theorem good_handOut (h : Good d t) {size p l : ℕ} {s : Phys} {fl : FreeLists}
    (hl : getLevelBySize size = some l) (hfresh : block p l ∉ t.liveSet)
    (ho : s.Ok d fl (t.liveSet ∪ {block p l}) t.added t.early) :
    Good d (t.handOut size (some p, s)) := by
  refine ⟨?_, fl, ?_⟩
  · simp only [handOut, hl, Option.getD_some, List.nodup_cons]
    exact ⟨hfresh, h.1⟩
  · rw [liveSet_handOut p size s hl]
    exact ho

theorem good_takeBack (h : Good d t) {size p l : ℕ} {s : Phys} {fl : FreeLists}
    (hl : getLevelBySize size = some l)
    (ho : s.Ok d fl (t.liveSet \ {block p l}) t.added t.early) :
    Good d (t.takeBack p size s) := by
  refine ⟨h.1.erase _, fl, ?_⟩
  rw [liveSet_takeBack h.1 p size s hl]
  exact ho

/-- No client holds a block at `NULL`. -/
theorem takeBack_null (h : Good d t) (size : ℕ) : t.takeBack 0 size t.phys = t := by
  obtain ⟨-, fl, ho⟩ := h
  have hnot : block 0 ((getLevelBySize size).getD 0) ∉ t.live := fun hb =>
    ho.live_ne_zero (p := 0) hb rfl
  simp [takeBack, List.erase_of_not_mem hnot]

theorem good_addMemory (h : Good d t) {start end_ : ℕ} (hv : Valid d t (.addMemory start end_)) :
    ∃ s, t.phys.physAddMemory d start end_ = some s ∧
      Good d { t with phys := s, ranges := (start, end_) :: t.ranges } := by
  obtain ⟨hnd, fl, ho⟩ := h
  obtain ⟨hs, he, hle, hlo, hhi, hdis⟩ := hv
  obtain ⟨s, fl', e, ho', -, -⟩ := ho.physAddMemory hs he hle hdis
    (Set.Ico_subset_Ico hlo hhi) hhi
  refine ⟨s, e, hnd, fl', ?_⟩
  have : added { t with phys := s, ranges := (start, end_) :: t.ranges } =
      t.added ∪ Set.Ico start end_ := by
    ext a
    simp [added, or_comm]
  rw [this]
  exact ho'

/-- Every call that returns keeps the invariant. -/
theorem good_step (h : Good d t) (hs : Step d t t') : Good d t' := by
  obtain ⟨c, hv, he⟩ := hs
  have h' := h
  obtain ⟨hnd, fl, ho⟩ := h
  cases c with
  | addMemory start end_ =>
      obtain ⟨s, e, hg⟩ := good_addMemory h' hv
      simp only [exec, e, Option.map_some, Option.some.injEq] at he
      exact he ▸ hg
  | addCommitted n =>
      simp only [exec, Option.some.injEq] at he
      exact he ▸ ⟨hnd, fl, ho.memAcctAddCommitted n⟩
  | alloc size =>
      rcases ho.physAlloc size with e | ⟨l, p, s, fl', pages, hl, e, ha, ho', -, -⟩
      · simp only [exec, e, Option.map_some, Option.some.injEq, handOut] at he
        exact he ▸ h'
      · simp only [exec, e, Option.map_some, Option.some.injEq] at he
        exact he ▸ good_handOut h' hl ha.fresh ho'
  | allocReserved size =>
      simp only [exec, Option.map_eq_some_iff] at he
      obtain ⟨r, e, rfl⟩ := he
      rcases Phys.physAllocReserved_cases e with rfl | ⟨l, hl, hres⟩
      · exact h'
      rcases ho.physAllocReserved hl hres with ⟨-, e'⟩ | ⟨p, s, fl', e', ha, ho', -⟩
      · obtain rfl := Option.some.inj (e.symm.trans e')
        exact h'
      · obtain rfl := Option.some.inj (e.symm.trans e')
        exact good_handOut h' (getPageLevelBySize_eq_some hl).1 ha.fresh ho'
  | free ptr size =>
      rcases hv with rfl | ⟨l, hl, hb⟩
      · simp only [exec, Phys.physFree, if_true, Option.map_some, Option.some.injEq] at he
        rw [← he, takeBack_null h']
        exact h'
      · obtain ⟨s, fl', pages, e, hr⟩ := ho.physFree hl hb
        simp only [exec, e, Option.map_some, Option.some.injEq] at he
        exact he ▸ good_takeBack h' hl hr.ok
  | freeReserved ptr size =>
      rcases hv with rfl | ⟨l, hl, hb⟩
      · simp only [exec, Phys.physFreeReserved, if_true, Option.map_some, Option.some.injEq] at he
        rw [← he, takeBack_null h']
        exact h'
      · cases hpl : getPageLevelBySize size with
        | none =>
          have : ptr ≠ 0 := ho.live_ne_zero hb
          simp [exec, Phys.physFreeReserved, this, hpl] at he
        | some k =>
          obtain rfl : l = k :=
            Option.some.inj (hl.symm.trans (getPageLevelBySize_eq_some hpl).1)
          obtain ⟨s, fl', pages, e, hr⟩ := ho.physFreeReserved hpl hb
          simp only [exec, e, Option.map_some, Option.some.injEq] at he
          exact he ▸ good_takeBack h' hl hr.ok
  | reserve n =>
      simp only [exec, Option.some.injEq] at he
      exact he ▸ ⟨hnd, fl, ho.memAcctReserve n⟩
  | unreserve n =>
      simp only [exec, Option.map_eq_some_iff] at he
      obtain ⟨a, ha, rfl⟩ := he
      exact ⟨hnd, fl, ho.memAcctUnreserve ha⟩
  | write b content =>
      simp only [exec, Option.some.injEq] at he
      have hb : b ∈ t.liveSet := hv
      exact he ▸ ⟨hnd, fl, ho.write hb⟩

theorem good_of_reachable (h : Reachable (Initial d) (Step d) t) : Good d t :=
  h.invariant (fun _ => good_of_initial) fun _ _ => good_step

/-- No call of a run fails an assertion, as long as the pages it takes out of the
reservation are there. -/
theorem exec_isSome (h : Reachable (Initial d) (Step d) t) (hv : Valid d t c)
    (hb : Backed t c) : ∃ t', exec d t c = some t' := by
  have hg := good_of_reachable h
  have hg' := hg
  obtain ⟨hnd, fl, ho⟩ := hg
  cases c with
  | addMemory start end_ =>
      obtain ⟨s, e, -⟩ := good_addMemory hg' hv
      exact ⟨_, by rw [exec, e]; rfl⟩
  | addCommitted n => exact ⟨_, rfl⟩
  | alloc size =>
      rcases ho.physAlloc size with e | ⟨l, p, s, fl', pages, hl, e, -⟩
      · exact ⟨_, by rw [exec, e]; rfl⟩
      · exact ⟨_, by rw [exec, e]; rfl⟩
  | allocReserved size =>
      obtain ⟨l, hl, hres⟩ := hb
      rcases ho.physAllocReserved hl hres with ⟨-, e⟩ | ⟨p, s, fl', e, -⟩
      · exact ⟨_, by rw [exec, e]; rfl⟩
      · exact ⟨_, by rw [exec, e]; rfl⟩
  | free ptr size =>
      rcases hv with rfl | ⟨l, hl, hlive⟩
      · exact ⟨_, rfl⟩
      · obtain ⟨s, fl', pages, e, -⟩ := ho.physFree hl hlive
        exact ⟨_, by rw [exec, e]; rfl⟩
  | freeReserved ptr size =>
      rcases hv with rfl | ⟨l, hl, hlive⟩
      · exact ⟨_, rfl⟩
      · obtain ⟨k, hk⟩ := Option.isSome_iff_exists.mp hb
        obtain rfl : l = k := Option.some.inj (hl.symm.trans (getPageLevelBySize_eq_some hk).1)
        obtain ⟨s, fl', pages, e, -⟩ := ho.physFreeReserved hk hlive
        exact ⟨_, by rw [exec, e]; rfl⟩
  | reserve n => exact ⟨_, rfl⟩
  | unreserve n =>
      exact ⟨_, by rw [exec, Accounting.memAcctUnreserve_eq_some.mpr ⟨hb, rfl⟩]; rfl⟩
  | write b content => exact ⟨_, rfl⟩

/-- The free blocks in the lists `fl` and the blocks of the clients cut the memory
that was added into aligned blocks. -/
structure Partition (d : DirectMap) (t : Clients) (fl : FreeLists) : Prop where
  chain : ∀ l < 16, Chain t.phys.mem (d.head l) (fl l)
  empty : ∀ l, 16 ≤ l → fl l = []
  nodup : ∀ l, (fl l).Nodup
  header : ∀ l, ∀ p ∈ fl l, pageLevel t.phys.mem p = l
  live_nodup : t.live.Nodup
  live_level : ∀ b ∈ t.live, ∃ l < 16, b = block b.addr l
  free_live : Disjoint (freeBlocks fl) t.liveSet
  tiling : Tiling (freeBlocks fl ∪ t.liveSet) t.added

theorem Partition.of_ok (hnd : t.live.Nodup) {fl : FreeLists}
    (h : t.phys.Ok d fl t.liveSet t.added t.early) : Partition d t fl where
  chain := h.inv.chain
  empty := h.inv.empty
  nodup := h.inv.nodup
  header := fun l p hp => by
    have := h.inv.level_lt hp
    rw [pageLevel, h.inv.header l p hp]
    omega
  live_nodup := hnd
  live_level := fun b hb => h.inv.level b (Or.inl hb)
  free_live := h.inv.free_live
  tiling := by
    have ht := h.inv.tiling
    rwa [Set.union_empty] at ht

/-- Between any two calls the memory that was added is partitioned into the free
blocks of the lists and the live blocks. -/
theorem partition_of_reachable (h : Reachable (Initial d) (Step d) t) :
    ∃ fl, Partition d t fl := by
  obtain ⟨hnd, fl, ho⟩ := good_of_reachable h
  exact ⟨fl, .of_ok hnd ho⟩

/-- A direct map of one page, behind the list heads. -/
def onePageMap : DirectMap where
  base := 2 ^ 21
  pageCount := 1
  levels := 0
  base_pos := by decide
  base_aligned := dvd_rfl
  top := by decide
  levels_outside := Or.inl (by decide)

/-- The page of `onePageMap` was added, and then a block of 64 bytes requested. -/
theorem exists_reachable_onePageMap :
    ∃ t, Reachable (Initial onePageMap) (Step onePageMap) t ∧
      t.ranges = [(2 ^ 21, 2 ^ 21 + 4096)] := by
  let t0 : Clients := ⟨⟨fun _ => 0, fun _ => 0, ⟨0, 0, 0, 0⟩⟩, [], [], 0⟩
  have h0 : Reachable (Initial onePageMap) (Step onePageMap) t0 :=
    .start ⟨fun _ _ => rfl, fun _ => rfl, rfl, rfl, rfl, rfl⟩
  have hv : Valid onePageMap t0 (.addMemory (2 ^ 21) (2 ^ 21 + 4096)) := by
    refine ⟨by decide, by decide, by decide, le_rfl, le_rfl, ?_⟩
    simp [added, t0]
  obtain ⟨t1, e1⟩ := exec_isSome h0 hv trivial
  have h1 := h0.next ⟨_, hv, e1⟩
  obtain ⟨t2, e2⟩ := exec_isSome (c := .alloc 64) h1 trivial trivial
  refine ⟨t2, h1.next ⟨.alloc 64, trivial, e2⟩, ?_⟩
  simp only [exec, Option.map_eq_some_iff] at e1 e2
  obtain ⟨s1, -, rfl⟩ := e1
  obtain ⟨⟨r, s2⟩, -, rfl⟩ := e2
  cases r <;> rfl

theorem partition_onePageMap : ∃ t, t.ranges = [(2 ^ 21, 2 ^ 21 + 4096)] ∧
    ∃ fl, Partition onePageMap t fl := by
  obtain ⟨t, ht, hr⟩ := exists_reachable_onePageMap
  exact ⟨t, hr, partition_of_reachable ht⟩

/-- Between any two calls the pages of the free blocks of the page level or above
are the available and the reserved ones. The committed pages are the early ones,
those of the live blocks of the page level or above, and one for each page that is
split into pieces. -/
theorem pages_of_reachable (h : Reachable (Initial d) (Step d) t) :
    ∃ fl, Partition d t fl ∧
      (pagesIn (wholeCells (freeBlocks fl))).ncard =
        t.phys.acct.available + t.phys.acct.reserved ∧
      t.phys.acct.available + t.phys.acct.reserved + t.phys.acct.committed =
        t.phys.acct.total ∧
      t.phys.acct.total = t.early + (pagesIn t.added).ncard ∧
      t.phys.acct.committed = t.early + (pagesIn (wholeCells t.liveSet)).ncard +
        (pagesIn (pieceCells (freeBlocks fl ∪ t.liveSet))).ncard := by
  obtain ⟨hnd, fl, ho⟩ := good_of_reachable h
  exact ⟨fl, .of_ok hnd ho, ho.inv.ncard_free.trans ho.pages, ho.balanced, ho.total,
    ho.committed⟩

theorem pages_onePageMap : ∃ t, t.ranges = [(2 ^ 21, 2 ^ 21 + 4096)] ∧
    ∃ fl, Partition onePageMap t fl ∧
      (pagesIn (wholeCells (freeBlocks fl))).ncard =
        t.phys.acct.available + t.phys.acct.reserved := by
  obtain ⟨t, ht, hr⟩ := exists_reachable_onePageMap
  obtain ⟨fl, hp, hpages, -⟩ := pages_of_reachable ht
  exact ⟨t, hr, fl, hp, hpages⟩

/-- Every block that is handed out is full of zero bytes, whatever the clients wrote to
the blocks they held. -/
theorem zeroed_of_reachable (h : Reachable (Initial d) (Step d) t) {size p : ℕ} {s : Phys}
    (he : t.phys.physAlloc d size = some (some p, s) ∨
      t.phys.physAllocReserved d size = some (some p, s)) :
    ∃ l, getLevelBySize size = some l ∧ size ≤ blockSize l ∧
      ∀ a ∈ (block p l).cells, s.mem a = 0 := by
  obtain ⟨-, fl, ho⟩ := good_of_reachable h
  rcases he with e | e
  · rcases ho.physAlloc size with e' | ⟨l, p', s', fl', pages, hl, e', ha, -⟩
    · simp [e] at e'
    · obtain ⟨rfl, rfl⟩ : p = p' ∧ s = s' := by simpa using e.symm.trans e'
      exact ⟨l, hl, by rw [blockSize_eq]; exact (getLevelBySize_eq_some hl).2.1, ha.zero⟩
  · rcases Phys.physAllocReserved_cases e with e' | ⟨l, hl, hres⟩
    · simp at e'
    have hl' := (getPageLevelBySize_eq_some hl).1
    rcases ho.physAllocReserved hl hres with ⟨-, e'⟩ | ⟨p', s', fl', e', ha, -⟩
    · simp [e] at e'
    · obtain ⟨rfl, rfl⟩ : p = p' ∧ s = s' := by simpa using e.symm.trans e'
      exact ⟨l, hl', by rw [blockSize_eq]; exact (getLevelBySize_eq_some hl').2.1, ha.zero⟩

/-- The page of `onePageMap` was added, and then reserved. -/
theorem exists_reachable_reserved : ∃ t, Reachable (Initial onePageMap) (Step onePageMap) t ∧
    1 ≤ t.phys.acct.reserved := by
  let t0 : Clients := ⟨⟨fun _ => 0, fun _ => 0, ⟨0, 0, 0, 0⟩⟩, [], [], 0⟩
  have h0 : Reachable (Initial onePageMap) (Step onePageMap) t0 :=
    .start ⟨fun _ _ => rfl, fun _ => rfl, rfl, rfl, rfl, rfl⟩
  have hv : Valid onePageMap t0 (.addMemory (2 ^ 21) (2 ^ 21 + 4096)) := by
    refine ⟨by decide, by decide, by decide, le_rfl, le_rfl, ?_⟩
    simp [added, t0]
  obtain ⟨-, fl, ho⟩ := good_of_reachable h0
  obtain ⟨s, fl', e, -, hacct, -⟩ := ho.physAddMemory hv.1 hv.2.1 hv.2.2.1 hv.2.2.2.2.2
    (Set.Ico_subset_Ico le_rfl le_rfl) le_rfl
  have h1 := h0.next ⟨.addMemory (2 ^ 21) (2 ^ 21 + 4096), hv, by rw [exec, e]; rfl⟩
  refine ⟨_, h1.next ⟨.reserve 1, trivial, rfl⟩, ?_⟩
  simp only [setAcct, hacct]
  decide

theorem zeroed_onePageMap : ∃ p s, ∃ t : Clients,
    t.phys.physAllocReserved onePageMap PAGE_SIZE = some (some p, s) ∧
      ∃ l, getLevelBySize PAGE_SIZE = some l ∧ PAGE_SIZE ≤ blockSize l ∧
        ∀ a ∈ (block p l).cells, s.mem a = 0 := by
  obtain ⟨t, ht, hres⟩ := exists_reachable_reserved
  obtain ⟨-, fl, ho⟩ := good_of_reachable ht
  obtain ⟨p, s, fl', e, -⟩ := ho.physAllocReserved_page hres
  exact ⟨p, s, t, e, zeroed_of_reachable ht (Or.inr e)⟩

end Clients

end Tomato
