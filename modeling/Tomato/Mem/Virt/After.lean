import Tomato.Mem.Alloc.Run
import Tomato.Mem.Virt.Exact

/-!
# The calls after the hand-over

What the callers of the page table may rely on once the boot code is done: a call that finds
its tables does not fail, it changes the entries of its own pages only, and the counters
change as the entries do.
-/

namespace Tomato

open Blocks Radix Transition

namespace Phys

variable {d : DirectMap} {root base pageCount : ℕ} {s s' : Phys} {fl : FreeLists}
  {live others : Set Block} {M boot : Set ℕ} {early : ℕ}

/-- `virt_make_global` of a range with its tables does not fail. -/
theorem VirtOk.virtMakeGlobal_run (h : VirtOk d root s fl live M early others boot)
    (hslot : ∀ n ∈ rangeOf base pageCount, ∃ p, slot d s.mem root n = some p) :
    ∃ s', Phys.virtMakeGlobal d root s base pageCount = some s' ∧ s'.acct = s.acct := by
  have hrun : ∃ y, Phys.virtMakeGlobal d root s base pageCount = some y ∧
      (Touched d root s y fl live M early others boot (rangeOf base pageCount) ∧
        y.acct = s.acct) := by
    refine forPages_run (I := fun i y =>
      Touched d root s y fl live M early others boot (rangeOf base i) ∧ y.acct = s.acct)
      ⟨.refl h _, rfl⟩ ?_
    rintro i hi x ⟨ht, hacct⟩
    obtain ⟨n, hn⟩ : ∃ n, n = pageNumber (pageAddr base i) := ⟨_, rfl⟩
    have hlt : n < 2 ^ 36 := hn ▸ pageNumber_lt _
    obtain ⟨p, hp⟩ := hslot n (hn ▸ mem_rangeOf hi)
    have hs : slot d x.mem root n = some p := (ht.slot hlt).trans hp
    have hfind : virtFindPte d root x (pageAddr base i) = some (p, x) := by
      rw [virtFindPte_eq, ← hn, hs, Option.map_some]
    simp only [hfind, Option.bind_eq_bind, Option.bind_some, rangeOf_succ, ← hn]
    by_cases hpres : x.mem p &&& IA32_PG_P = 0
    · rw [if_neg (by simpa using hpres)]
      exact ⟨x, rfl, ht.mono Set.subset_union_left, hacct⟩
    · rw [if_pos hpres]
      obtain ⟨ht', -⟩ := ht.ok.touch_sameFrame (v := x.mem p ||| IA32_PG_G) hlt hs
        (fun _ h0 => by simp [h0] at hpres) (by
          rw [Nat.and_or_distrib_right, show IA32_PG_G &&& PAGING_4K_ADDRESS_MASK = 0 from rfl,
            Nat.or_zero])
      exact ⟨_, rfl, ht.trans ht', hacct⟩
  obtain ⟨s', e, -, hacct⟩ := hrun
  exact ⟨s', e, hacct⟩

theorem virtMakeGlobal_acct (he : Phys.virtMakeGlobal d root s base pageCount = some s') :
    s'.acct = s.acct := by
  unfold Phys.virtMakeGlobal at he
  induction pageCount generalizing s' with
  | zero => exact congrArg Phys.acct (Option.some.inj he).symm
  | succ k ih =>
    obtain ⟨s1, e1, he⟩ := Option.bind_eq_some_iff.mp he
    obtain ⟨⟨pte, s2⟩, e2, he2⟩ := Option.bind_eq_some_iff.mp he
    obtain ⟨-, rfl⟩ := virtFindPte_some e2
    have hacct := ih e1
    simp only at he2
    split at he2
    · exact (congrArg Phys.acct (Option.some.inj he2).symm).trans hacct
    · exact (congrArg Phys.acct (Option.some.inj he2).symm).trans hacct

theorem withGlobal_eq_zero {v : ℕ} : withGlobal v = 0 ↔ v = 0 := by
  rw [withGlobal]
  split
  · rw [Nat.or_eq_zero_iff]
    simp [IA32_PG_G]
    rintro rfl
    simp at *
  · rfl

end Phys

/-- The pages of the direct map. -/
def directPages (d : DirectMap) : Set ℕ := {n | ∃ a ∈ d.range, n = pageNumber a}

/-- The calls of a client of the allocator that has nothing to do with reserved pages. -/
def Call.Plain : Call → Prop
  | .alloc _ | .free _ _ | .write _ _ => True
  | _ => False

namespace VirtState

variable {d : DirectMap} {entries : Memmap} {vs vs' vs'' : VirtState} {W W' : Set ℕ}
  {base pageCount n : ℕ} {c : VirtCall}

/-- The tables on the way to the page exist. -/
def HasSlot (d : DirectMap) (vs : VirtState) (n : ℕ) : Prop :=
  (slot d vs.phys.mem vs.pageTable n).isSome

/-- Only the entries of the pages in `W` change, and no table goes away. -/
structure Changed (d : DirectMap) (vs vs' : VirtState) (W : Set ℕ) : Prop where
  leaf : Outside W (vs.flatMap d) (vs'.flatMap d)
  slot : ∀ n < 2 ^ 36, vs.HasSlot d n → vs'.HasSlot d n
  bootPages : vs'.bootPages = vs.bootPages
  ranges : vs'.boot.clients.ranges = vs.boot.clients.ranges

namespace Changed

theorem refl (vs : VirtState) (W : Set ℕ) : Changed d vs vs W :=
  ⟨fun _ _ _ => rfl, fun _ _ h => h, rfl, rfl⟩

theorem trans (h : Changed d vs vs' W) (h' : Changed d vs' vs'' W') :
    Changed d vs vs'' (W ∪ W') where
  leaf := fun n hn hw => (h'.leaf n hn fun hc => hw (Or.inr hc)).trans
    (h.leaf n hn fun hc => hw (Or.inl hc))
  slot := fun n hn hs => h'.slot n hn (h.slot n hn hs)
  bootPages := h'.bootPages.trans h.bootPages
  ranges := h'.ranges.trans h.ranges

theorem mono (h : Changed d vs vs' W) (hW : W ⊆ W') : Changed d vs vs' W' :=
  ⟨fun n hn hw => h.leaf n hn fun hc => hw (hW hc), h.slot, h.bootPages, h.ranges⟩

end Changed

/-- At most one page of the direct map is made global, and no other entry changes. -/
structure PageGlobal (d : DirectMap) (vs vs' : VirtState) (W : Set ℕ) : Prop where
  direct : W ⊆ directPages d
  one : W.Subsingleton
  changed : Changed d vs vs' W
  global : ∀ n ∈ W, vs'.flatMap d n = Phys.withGlobal (vs.flatMap d n)

namespace PageGlobal

theorem refl (vs : VirtState) : PageGlobal d vs vs ∅ :=
  ⟨Set.empty_subset _, Set.subsingleton_empty, .refl _ _, fun _ hn => hn.elim⟩

theorem leaf (h : PageGlobal d vs vs' W) (hn : n < 2 ^ 36) : vs'.flatMap d n = vs.flatMap d n ∨
    vs'.flatMap d n = Phys.withGlobal (vs.flatMap d n) := by
  by_cases hw : n ∈ W
  · exact Or.inr (h.global n hw)
  · exact Or.inl (h.changed.leaf n hn hw)

/-- No entry changes after that. -/
theorem trans (h : PageGlobal d vs vs' W) (h' : Changed d vs' vs'' ∅) :
    PageGlobal d vs vs'' W where
  direct := h.direct
  one := h.one
  changed := (h.changed.trans h').mono (by simp)
  global := fun n hn => by
    obtain ⟨x, -, rfl⟩ := h.direct hn
    exact (h'.leaf _ (pageNumber_lt x) (Set.notMem_empty _)).trans (h.global _ hn)

end PageGlobal

/-- A store that the functions of the page table made. -/
theorem changed_setPhys {s : Phys} (hslot : ∀ n < 2 ^ 36, vs.HasSlot d n →
      (slot d s.mem vs.pageTable n).isSome)
    (hleaf : Outside W (vs.flatMap d) (leafEntry d s.mem vs.pageTable)) :
    Changed d vs (vs.setPhys s) W := ⟨hleaf, hslot, rfl, rfl⟩

variable (h : vs.Good d entries) (hl : vs.handedOver = true)

include h hl

theorem makeGlobal_run (hslot : ∀ n ∈ rangeOf base pageCount, vs.HasSlot d n) :
    ∃ vs', vs.exec d entries (.makeGlobal base pageCount) = some vs' ∧
      Changed d vs vs' (rangeOf base pageCount) ∧
      (∀ n ∈ rangeOf base pageCount, vs'.flatMap d n = Phys.withGlobal (vs.flatMap d n)) ∧
      vs'.phys.acct = vs.phys.acct := by
  obtain ⟨-, fl, live, hok⟩ := h.late hl
  obtain ⟨s, e, hacct⟩ := hok.virtMakeGlobal_run fun n hn =>
    Option.isSome_iff_exists.mp (hslot n hn)
  obtain ⟨fl', live', ht, hall⟩ := hok.virtMakeGlobal e
  refine ⟨vs.setPhys s, by simp only [exec, phys, e, Option.map_some], ?_, hall, hacct⟩
  exact changed_setPhys (fun n hn hs => (ht.slot hn).symm ▸ hs) ht.leaf

theorem populate_run (globalPage : Bool) (hlen : pageCount ≤ 2 ^ 36)
    (hslot : ∀ n ∈ rangeOf base pageCount, vs.HasSlot d n)
    (hp : ∀ n ∈ rangeOf base pageCount, vs.flatMap d n ≠ 0 → vs.flatMap d n &&& IA32_PG_P ≠ 0)
    (hres : unpopulated (vs.flatMap d) base pageCount ≤ vs.phys.acct.reserved) :
    ∃ vs', vs.exec d entries (.populate base pageCount globalPage) = some vs' ∧
      Changed d vs vs' (rangeOf base pageCount) ∧
      (∀ n ∈ rangeOf base pageCount, Phys.Populated d globalPage (virtIsUserAddress base)
        (vs.flatMap d n) (vs'.flatMap d n)) ∧
      vs'.phys.acct = Phys.populatedRange vs.phys.acct (vs.flatMap d) base pageCount := by
  obtain ⟨-, fl, live, hok⟩ := h.late hl
  obtain ⟨s, fl', live', e, ht, hall, hacct⟩ := hok.virtPopulate_run globalPage hlen
    (fun n hn => Option.isSome_iff_exists.mp (hslot n hn)) hp hres
  refine ⟨vs.setPhys s, by simp only [exec, phys, e, Option.map_some], ?_, hall, hacct⟩
  exact changed_setPhys (fun n hn hs => (ht.slot hn).symm ▸ hs) ht.leaf

theorem free_run (hzero : d.base ∉ vs.boot.clients.added) (hlen : pageCount ≤ 2 ^ 36)
    (hslot : ∀ n ∈ rangeOf base pageCount, vs.HasSlot d n)
    (hg : ∀ n ∈ rangeOf base pageCount, vs.flatMap d n &&& IA32_PG_G = 0)
    (hb : ∀ n ∈ rangeOf base pageCount, n ∉ vs.bootPages)
    (hres : unpopulated (vs.flatMap d) base pageCount ≤ vs.phys.acct.reserved) :
    ∃ vs', vs.exec d entries (.free base pageCount) = some vs' ∧
      Changed d vs vs' (rangeOf base pageCount) ∧
      (∀ n ∈ rangeOf base pageCount, vs'.flatMap d n = 0) ∧
      vs'.phys.acct = Phys.freedRange vs.phys.acct (vs.flatMap d) base pageCount := by
  obtain ⟨-, fl, live, hok⟩ := h.late hl
  rcases hok.virtFree_run hzero hlen (fun n hn => Option.isSome_iff_exists.mp (hslot n hn)) hg hb
    with ⟨hlt, -⟩ | ⟨-, s, fl', e, ht, hall, -, hacct⟩
  · exact absurd hlt (not_lt.mpr hres)
  refine ⟨vs.setPhys s, by simp only [exec, phys, e, Option.map_some], ?_, hall, hacct⟩
  exact changed_setPhys (fun n hn hs => (ht.slot hn).symm ▸ hs) ht.leaf

/-- Either the pages are reserved and their tables exist, or nothing is reserved. -/
theorem reserve_run (base pageCount : ℕ) :
    ∃ r s, vs.phys.virtReservePageTables d vs.pageTable base pageCount = some (r, s) ∧
      Changed d vs (vs.setPhys s) ∅ ∧
      (r = .ok () → (∃ c, c + pageCount ≤ vs.phys.acct.available ∧
        s.acct = Phys.tabled { vs.phys.acct with
          available := vs.phys.acct.available - pageCount
          reserved := vs.phys.acct.reserved + pageCount } c) ∧
        ∀ n ∈ rangeOf base pageCount, (vs.setPhys s).HasSlot d n) ∧
      ∀ e, r = .error e → e = .outOfResources ∧
        ∃ c ≤ vs.phys.acct.available, s.acct = Phys.tabled vs.phys.acct c := by
  obtain ⟨-, fl, live, hok⟩ := h.late hl
  obtain ⟨r, s, live', e, hres, hsucc, herr⟩ := hok.virtReservePageTables base pageCount
  refine ⟨r, s, e, changed_setPhys (fun n hn hs => ?_) fun n hn _ => hres.leaf n hn,
    fun hr => ⟨(hsucc hr).1, fun n hn => Option.isSome_iff_exists.mpr ((hsucc hr).2 n hn)⟩, herr⟩
  obtain ⟨p, hp⟩ := Option.isSome_iff_exists.mp hs
  obtain ⟨t, ht, rfl⟩ := slot_eq_some hp
  rw [slot, hres.table 3 le_rfl _ (pageNumber_div_lt hn) t ht]
  rfl

theorem client_run {c : Call} (hc : c.Plain) (hv : vs.Valid d (.client c))
    (he : vs.exec d entries (.client c) = some vs') :
    Changed d vs vs' ∅ ∧ vs'.phys.acct.reserved = vs.phys.acct.reserved := by
  have hranges := ranges_of_exec hl hv he
  have hboot := bootPages_of_exec hl hv he
  obtain ⟨-, hlater, hvalid⟩ := hv
  obtain ⟨t, e, rfl⟩ := Option.map_eq_some_iff.mp he
  obtain ⟨-, hsame⟩ := (h.late hl).exec hvalid hlater e
  refine ⟨⟨fun n hn _ => (hsame n hn).2, fun n hn hs => ?_, hboot, hranges⟩, ?_⟩
  · exact (congrArg Option.isSome (hsame n hn).1).trans hs
  · obtain ⟨-, fl, live, hok⟩ := h.late hl
    cases c with
    | alloc size =>
      obtain ⟨r, e1, rfl⟩ := Option.map_eq_some_iff.mp e
      rcases hok.ok.physAlloc size with e2 | ⟨l, p, s, fl', pages, -, e2, -, -, -, hacct⟩
      · obtain rfl := Option.some.inj (e1.symm.trans e2)
        rfl
      · obtain rfl := Option.some.inj (e1.symm.trans e2)
        have hres : s.acct.reserved = vs.boot.clients.phys.acct.reserved := by rw [hacct]
        exact hres
    | free ptr size =>
      obtain ⟨s, e1, rfl⟩ := Option.map_eq_some_iff.mp e
      rcases hvalid with rfl | ⟨l, hlev, hb⟩
      · simp only [Phys.physFree, if_true, Option.some.injEq] at e1
        exact congrArg (fun s : Phys => s.acct.reserved) e1.symm
      · obtain ⟨s', fl', pages, e2, hr⟩ := hok.ok.physFree hlev (hok.others_live hb)
        obtain rfl := Option.some.inj (e1.symm.trans e2)
        have hres : s.acct.reserved = vs.boot.clients.phys.acct.reserved := by
          rw [hr.acct]
          rfl
        exact hres
    | write b content =>
      obtain rfl := Option.some.inj e
      rfl
    | _ => exact hc.elim

/-- A page for a new slab can be made global, if the tables of all the memory exist. -/
theorem makeGlobal_slab {x : ℕ} {vs1 : VirtState}
    (hadded : ∀ a ∈ vs.boot.clients.added, vs.HasSlot d (pageNumber a))
    (e1 : vs.physAlloc d PAGE_SIZE = some (some x, vs1)) :
    ∃ vs2, vs1.exec d entries (.makeGlobal x 1) = some vs2 := by
  have hvalid : vs.Valid d (.client (.alloc PAGE_SIZE)) := ⟨hl, trivial, trivial⟩
  obtain ⟨r, er, hr⟩ := Option.map_eq_some_iff.mp e1
  have he : vs.exec d entries (.client (.alloc PAGE_SIZE)) = some vs1 := by
    rw [exec, Clients.exec, show vs.boot.clients.phys.physAlloc d PAGE_SIZE = some r from er]
    exact congrArg some (congrArg Prod.snd hr)
  obtain ⟨hch, -⟩ := client_run h hl (c := .alloc PAGE_SIZE) trivial hvalid he
  obtain ⟨-, fl, live, hok⟩ := h.late hl
  have hx : x ∈ vs.boot.clients.added := by
    have hr1 : r.1 = some x := congrArg Prod.fst hr
    rcases hok.ok.physAlloc PAGE_SIZE with e2 | ⟨l, y, s, fl', pages, -, e2, ha, -⟩
    · obtain rfl := Option.some.inj (e2.symm.trans er)
      simp at hr1
    · obtain rfl := Option.some.inj (e2.symm.trans er)
      obtain rfl : y = x := Option.some.inj hr1
      exact hok.ok.inv.freeCells_subset
        (ha.cells ⟨le_rfl, Nat.lt_add_of_pos_right (Nat.two_pow_pos _)⟩)
  obtain ⟨vs2, e2, -⟩ := makeGlobal_run (good_exec h hvalid he).1 (handedOver_of_exec hl he)
    (show ∀ n ∈ rangeOf x 1, _ from fun n hn => by
      obtain ⟨i, hi, rfl⟩ := hn
      obtain rfl : i = 0 := by omega
      rw [pageNumber_pageAddr]
      exact hch.slot _ (pageNumber_lt x) (hadded x hx))
  exact ⟨vs2, e2⟩

/-- The memory for a new slab. -/
theorem slabPage_run (hp : SlabPage d entries vs vs') :
    vs'.Good d entries ∧ vs'.handedOver = true ∧ (∃ W, PageGlobal d vs vs' W) ∧
      ∃ c ≤ vs.phys.acct.available, vs'.phys.acct = Phys.tabled vs.phys.acct c := by
  rcases hp with rfl | ⟨o, vs1, e1, hp⟩
  · exact ⟨h, hl, ⟨∅, .refl vs'⟩, 0, Nat.zero_le _, rfl⟩
  have hvalid : vs.Valid d (.client (.alloc PAGE_SIZE)) := ⟨hl, trivial, trivial⟩
  have he : vs.exec d entries (.client (.alloc PAGE_SIZE)) = some vs1 := by
    obtain ⟨r, er, hr⟩ := Option.map_eq_some_iff.mp e1
    rw [exec, Clients.exec, show vs.boot.clients.phys.physAlloc d PAGE_SIZE = some r from er]
    exact congrArg some (congrArg Prod.snd hr)
  have hg1 := (good_exec h hvalid he).1
  have hl1 := handedOver_of_exec hl he
  obtain ⟨hch1, -⟩ := client_run h hl (c := .alloc PAGE_SIZE) trivial hvalid he
  obtain ⟨-, fl, live, hok⟩ := h.late hl
  rcases hok.ok.physAlloc PAGE_SIZE with e2 | ⟨l, x, s, fl', pages, hlev, e2, ha, -, hle, hacct⟩
  · have e3 : vs.physAlloc d PAGE_SIZE = some (none, vs) := by
      simp only [physAlloc, phys, e2, Option.map_some, Clients.handOut]
    obtain ⟨rfl, rfl⟩ := Prod.mk.inj (Option.some.inj (e3.symm.trans e1))
    subst hp
    exact ⟨h, hl, ⟨∅, .refl vs'⟩, 0, Nat.zero_le _, rfl⟩
  · obtain ⟨rfl, hvs⟩ : o = some x ∧ vs1.phys = s := by
      simp only [physAlloc, phys, e2, Option.map_some, Option.some.injEq, Prod.mk.injEq] at e1
      exact ⟨e1.1.symm, by rw [← e1.2]; rfl⟩
    have hvalid2 : vs1.Valid d (.makeGlobal x 1) := hl1
    obtain ⟨hg2, hleaf, hall⟩ := good_exec hg1 hvalid2 hp
    obtain ⟨-, fl1, live1, hok1⟩ := hg1.late hl1
    obtain ⟨s2, e4, hs2⟩ := Option.map_eq_some_iff.mp hp
    obtain ⟨fl2, live2, ht, -⟩ := hok1.virtMakeGlobal e4
    have hx : x ∈ d.range := hok.ok.inv.range (hok.ok.inv.freeCells_subset
      (ha.cells ⟨le_rfl, Nat.lt_add_of_pos_right (Nat.two_pow_pos _)⟩))
    have hW : ∀ n ∈ rangeOf x 1, n = pageNumber x := by
      rintro n ⟨i, hi, rfl⟩
      obtain rfl : i = 0 := by omega
      rw [pageNumber_pageAddr]
      rfl
    have hch2 : Changed d vs1 vs' (rangeOf x 1) := hs2 ▸
      changed_setPhys (fun n hn hs => (ht.slot hn).symm ▸ hs) ht.leaf
    refine ⟨hg2, handedOver_of_exec hl1 hp, ⟨rangeOf x 1, fun n hn => ⟨x, hx, hW n hn⟩,
      fun n hn m hm => (hW n hn).trans (hW m hm).symm, (hch1.trans hch2).mono (by simp),
      fun n hn => ?_⟩, pages, hle, ?_⟩
    · rw [hall n hn, hch1.leaf n (lt_of_mem_rangeOf hn) (Set.notMem_empty n)]
    · rw [← hs2]
      change s2.acct = _
      rw [Phys.virtMakeGlobal_acct e4]
      change vs1.phys.acct = _
      rw [hvs, hacct, Phys.tabled]
      rfl

end VirtState

end Tomato
