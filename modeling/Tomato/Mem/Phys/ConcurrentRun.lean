import Tomato.Mem.Phys.ConcurrentBlocks

/-!
# Runs of many cores

From the start of a call to its end every step keeps the invariant and none fails, so
the counters never add up to more than the total, no counter underflows, and the pages
that are available or reserved are free at every moment.
-/

namespace Tomato

open Blocks Transition

namespace Cores

variable {d : DirectMap} {s s' : Cores} {fl fl' : FreeLists} {M M' : Set ℕ}
  {c n level ptr : ℕ} {pc' : CorePc} {call : Call}

/-- A call starts that has not changed anything yet. -/
theorem Good.start (h : Good d s fl M) (hc : c < s.cpuCount) (hidle : s.pc c = .idle)
    (hpc : s'.pc = Function.update s.pc c pc') (hphys : s'.phys = s.phys)
    (hcall : s'.call = Function.update s.call c (some call))
    (hresult : s'.result = Function.update s.result c none)
    (hsame : s'.cpuCount = s.cpuCount ∧ s'.lock = s.lock ∧ s'.held = s.held ∧
      s'.live = s.live ∧ s'.ranges = s.ranges ∧ s'.early = s.early)
    (hregion : freeing pc' = none ∧ adding pc' = ∅ ∧ zeroed pc' = ∅ ∧ critical pc' = false)
    (hcount : transit pc' = 0 ∧ slack pc' = 0 ∧ ahead pc' = 0)
    (hok : PcOk d fl (s.held c) pc')
    (hpage : call = .allocReserved PAGE_SIZE → PageCallOk pc' none) : Good d s' fl M := by
  obtain ⟨e1, e2, e3, e4, e5, e6⟩ := hsame
  obtain ⟨r1, r2, r3, r4⟩ := hregion
  obtain ⟨n1, n2, n3⟩ := hcount
  refine h.step hc hpc (fun _ _ => by rw [e3])
    (fun i hi => ⟨by rw [hcall, Function.update_of_ne hi],
      by rw [hresult, Function.update_of_ne hi]⟩) (Or.inr rfl)
    (Or.inr ⟨r4, Or.inr ⟨by rw [hidle]; rfl, e2⟩⟩) (by rw [e3]; exact hok) ?_ ?_ ?_
  · rw [hcall, hresult, Function.update_self, Function.update_self]
    exact fun he => hpage (Option.some.inj he)
  · exact h.owns.congr hpc (by rw [hphys]) e4 e5 (by rw [r1, hidle]; rfl)
      (by rw [r2, hidle]; rfl) (by rw [r3, hidle]; rfl)
  · refine h.counts.step hc e1 hpc (by rw [e3]; exact (Function.update_eq_self c s.held).symm)
      ?_ ?_ ?_ ?_
    · rw [hphys, hidle, n1]; rfl
    · rw [hphys, hidle, n2]; rfl
    · rw [hphys, hidle, n3, e6]; rfl
    · rw [hphys]

section

variable (h : Good d s fl M) (hc : c < s.cpuCount) (hidle : s.pc c = .idle)
include h hc hidle

/-- The block leaves the live ones, but not the owned ones. -/
theorem good_beginFree {reserved : Bool} (hb : block ptr level ∈ s.live) (hlt : level < 16)
    (hres : reserved = true → 6 ≤ level) (hcall : call ≠ .allocReserved PAGE_SIZE) :
    Good d ({ ({ s with call := Function.update s.call c (some call) } : Cores).setResult c none with
      live := s.live.erase (block ptr level) }.setPc c (.freeZero ptr level reserved)) fl M := by
  have hfc : freeing (s.pc c) = none := by rw [hidle]; rfl
  refine h.step hc rfl (fun _ _ => rfl) (fun i hi => ⟨Function.update_of_ne hi _ _,
    Function.update_of_ne hi _ _⟩) (Or.inr rfl) (Or.inr ⟨rfl, Or.inr ⟨by rw [hidle]; rfl, rfl⟩⟩)
    ⟨hlt, hres⟩ ?_ ?_ ?_
  · intro he
    simp only [setPc_call, setResult_call, Function.update_self, Option.some.injEq] at he
    exact absurd he hcall
  · refine h.owns.step_same rfl rfl (by rw [hidle]; rfl) ?_ (h.owns.nodup.erase _)
      (fun i _ b hib hmem => h.owns.freeing_live i b hib (List.mem_of_mem_erase hmem)) ?_ ?_
      (fun _ _ _ _ => rfl) (by simp [zeroed])
    · have howned : ({ ({ s with call := Function.update s.call c (some call) } : Cores).setResult
          c none with live := s.live.erase (block ptr level) }.setPc c
            (.freeZero ptr level reserved)).owned = s.owned := by
        rw [Owns.owned_step (s := s) (show _ = Function.update s.pc c (.freeZero ptr level reserved)
          from rfl), Owns.owned_self (c := c), hfc]
        ext b
        simp only [setPc_live, freeing, Option.some.injEq, Set.mem_ofPred_eq,
          h.owns.nodup.mem_erase_iff, reduceCtorEq, false_or]
        by_cases he : b = block ptr level
        · simp [he, hb]
        · simp [he, Ne.symm he]
      rw [howned]
      exact h.owns.inv
    · intro b he
      simp only [freeing, Option.some.injEq] at he
      rw [← he, setPc_live, h.owns.nodup.mem_erase_iff]
      simp
    · intro b he
      simp only [freeing, Option.some.injEq] at he
      exact Or.inr (he ▸ hb)
  · refine h.counts.step hc rfl rfl (Function.update_eq_self c s.held).symm ?_ ?_ ?_ rfl
    all_goals rw [hidle]; rfl

theorem good_beginAddMemory {start end_ : ℕ} (hv : s.ValidCall d c (.addMemory start end_)) :
    Good d ({ ({ s with call := Function.update s.call c (some (.addMemory start end_)) } :
      Cores).setResult c none with ranges := (start, end_) :: s.ranges }.setPc c
        (.addZero start end_)) fl M := by
  obtain ⟨hs, he, hle, hbase, hend, hdisj⟩ := hv
  have hfc : freeing (s.pc c) = none := by rw [hidle]; rfl
  have hadded : ({ ({ s with call := Function.update s.call c (some (.addMemory start end_)) } :
      Cores).setResult c none with ranges := (start, end_) :: s.ranges }.setPc c
        (.addZero start end_)).added = Set.Ico start end_ ∪ s.added := by
    ext a
    simp [added]
  refine h.step hc rfl (fun _ _ => rfl) (fun i hi => ⟨Function.update_of_ne hi _ _,
    Function.update_of_ne hi _ _⟩) (Or.inr rfl) (Or.inr ⟨rfl, Or.inr ⟨by rw [hidle]; rfl, rfl⟩⟩)
    ⟨hs, he, hle, hend⟩ ?_ ?_ ?_
  · intro he
    simp at he
  · refine h.owns.step rfl ?_ h.owns.nodup (fun i _ b hib => h.owns.freeing_live i b hib)
      (by simp [freeing]) (by simp [freeing]) ?_ ?_ ?_ ?_ (fun i _ => h.owns.adding_M i) ?_
      (fun _ _ _ _ => rfl) (by simp [zeroed])
    · rw [Owns.owned_step (s := s) (show _ = Function.update s.pc c (.addZero start end_) from rfl)]
      have := h.owns.inv
      rw [Owns.owned_self (c := c), hfc] at this
      exact this
    · rw [hadded]
      exact h.owns.subset_added.trans Set.subset_union_right
    · rw [hadded]
      exact Set.subset_union_right
    · rw [hadded]
      exact fun a ha => ⟨Or.inl ha, hbase.trans ha.1, ha.2.trans_le hend⟩
    · exact hdisj.mono_right h.owns.subset_added
    · exact fun i _ => (hdisj.mono_right
        ((h.owns.adding_subset i).trans Set.inter_subset_left)).symm
  · refine h.counts.step hc rfl rfl (Function.update_eq_self c s.held).symm ?_ ?_ ?_ rfl
    all_goals rw [hidle]; rfl

theorem good_beginWrite {b : Block} (hb : b ∈ s.live) (content : ℕ → ℕ) :
    Good d { ({ s with call := Function.update s.call c (some (.write b content)) } :
      Cores).setResult c none with phys := { s.phys with
        mem := fun a => if b.addr ≤ a ∧ a < b.addr + 2 ^ b.order then content a
          else s.phys.mem a } } fl M := by
  have hball : b ∈ freeBlocks fl ∪ s.owned ∪ ∅ := Owns.mem_owned_of_live hb
  have hpc : s.pc = Function.update s.pc c .idle := by rw [← hidle, Function.update_eq_self]
  refine h.step hc hpc (fun _ _ => rfl) (fun i hi => ⟨Function.update_of_ne hi _ _,
    Function.update_of_ne hi _ _⟩) (Or.inr rfl) (Or.inr ⟨rfl, Or.inr ⟨by rw [hidle]; rfl, rfl⟩⟩)
    trivial ?_ ?_ ?_
  · intro he
    simp at he
  · refine h.owns.step_same hpc rfl (by rw [hidle]) ?_ h.owns.nodup
      (fun i _ b hib => h.owns.freeing_live i b hib) (by simp [freeing]) (by simp [freeing]) ?_
      (by simp [zeroed])
    · refine h.owns.inv.congr_mem (fun l hl => if_neg fun hcell =>
        h.owns.inv.head_ne hl hball hcell rfl) ?_
      intro l p hp a ha
      refine if_neg fun hcell => h.owns.inv.free_ne hp (Or.inl (Or.inl hb)) ?_
      exact h.owns.inv.tiling.eq_of_mem (Phys.Inv.mem_all_of_free hp) hball ha hcell
    · exact fun i _ a ha => if_neg fun hcell => h.owns.zeroed_notMem_live ha hb hcell
  · refine h.counts.step hc rfl hpc (Function.update_eq_self c s.held).symm ?_ ?_ ?_ rfl
    · rw [hidle]
    · rw [hidle]
    · rw [hidle]; rfl

/-- A call that is valid starts and keeps the invariant. -/
theorem good_begin (hv : s.ValidCall d c call) :
    ∃ s', s.begin_ c call = some s' ∧ Good d s' fl M := by
  have hpc : s.pc = Function.update s.pc c .idle := by rw [← hidle, Function.update_eq_self]
  have hsame : s.cpuCount = s.cpuCount ∧ s.lock = s.lock ∧ s.held = s.held ∧ s.live = s.live ∧
    s.ranges = s.ranges ∧ s.early = s.early := ⟨rfl, rfl, rfl, rfl, rfl, rfl⟩
  cases call with
  | addMemory start end_ =>
      have h1 := Phys.and_pageMask.mpr hv.1
      have h2 := Phys.and_pageMask.mpr hv.2.1
      simp only [begin_, h1, h2, ne_eq, not_true_eq_false, or_self, if_false]
      exact ⟨_, rfl, good_beginAddMemory h hc hidle hv⟩
  | addCommitted n =>
      exact ⟨_, rfl, h.start hc hidle rfl rfl rfl rfl hsame ⟨rfl, rfl, rfl, rfl⟩ ⟨rfl, rfl, rfl⟩
        trivial (by simp)⟩
  | alloc size =>
      cases hl : getLevelBySize size with
      | none =>
        simp only [begin_, hl]
        exact ⟨_, rfl, h.start hc hidle hpc rfl rfl rfl hsame
          ⟨rfl, rfl, rfl, rfl⟩ ⟨rfl, rfl, rfl⟩ trivial (by simp)⟩
      | some level =>
        simp only [begin_, hl]
        exact ⟨_, rfl, h.start hc hidle rfl rfl rfl rfl hsame
          ⟨rfl, rfl, rfl, rfl⟩ ⟨rfl, rfl, rfl⟩ ⟨(getLevelBySize_eq_some hl).1, by simp⟩ (by simp)⟩
  | allocReserved size =>
      obtain ⟨level, hl, hheld⟩ := hv
      obtain ⟨-, h6, h16, -⟩ := getPageLevelBySize_eq_some hl
      simp only [begin_, hl, Option.map_some]
      refine ⟨_, rfl, h.start hc hidle rfl rfl rfl rfl hsame
        ⟨rfl, rfl, rfl, rfl⟩ ⟨rfl, rfl, rfl⟩ ⟨h16, fun _ => ⟨h6, hheld⟩⟩ ?_⟩
      intro he
      obtain rfl : size = PAGE_SIZE := by simpa using he
      exact ⟨(Option.some.inj (getPageLevelBySize_pageSize.symm.trans hl)).symm, rfl⟩
  | free ptr size =>
      by_cases h0 : ptr = 0
      · simp only [begin_, h0, if_true]
        exact ⟨_, rfl, h.start hc hidle hpc rfl rfl rfl hsame
          ⟨rfl, rfl, rfl, rfl⟩ ⟨rfl, rfl, rfl⟩ trivial (by simp)⟩
      · obtain ⟨level, hl, hb⟩ := hv.resolve_left h0
        simp only [begin_, h0, if_false, hl, Option.map_some]
        exact ⟨_, rfl, good_beginFree h hc hidle hb (getLevelBySize_eq_some hl).1 (by simp) (by simp)⟩
  | freeReserved ptr size =>
      by_cases h0 : ptr = 0
      · simp only [begin_, h0, if_true]
        exact ⟨_, rfl, h.start hc hidle hpc rfl rfl rfl hsame
          ⟨rfl, rfl, rfl, rfl⟩ ⟨rfl, rfl, rfl⟩ trivial (by simp)⟩
      · obtain ⟨level, hl, hb⟩ := hv.resolve_left h0
        obtain ⟨-, h6, h16, -⟩ := getPageLevelBySize_eq_some hl
        simp only [begin_, h0, if_false, hl, Option.map_some]
        exact ⟨_, rfl, good_beginFree h hc hidle hb h16 (fun _ => h6) (by simp)⟩
  | reserve n =>
      exact ⟨_, rfl, h.start hc hidle rfl rfl rfl rfl hsame ⟨rfl, rfl, rfl, rfl⟩ ⟨rfl, rfl, rfl⟩
        trivial (by simp)⟩
  | unreserve n =>
      exact ⟨_, rfl, h.start hc hidle rfl rfl rfl rfl hsame ⟨rfl, rfl, rfl, rfl⟩ ⟨rfl, rfl, rfl⟩
        hv (by simp)⟩
  | write b content => exact ⟨_, rfl, good_beginWrite h hc hidle hv content⟩

end

/-- The next step of a call succeeds and keeps the invariant. -/
theorem good_advance (h : Good d s fl M) (hc : c < s.cpuCount) (hpc : s.pc c ≠ .idle)
    (hlock : needsLock (s.pc c) = true → s.lock = none) (spurious : Bool) :
    ∃ s', s.advance d c spurious = some s' ∧ ∃ fl M, Good d s' fl M := by
  unfold advance
  cases hp : s.pc c with
  | idle => exact absurd hp hpc
  | load n use => exact ⟨_, rfl, fl, M, good_load h hc hp⟩
  | exchange n available use => exact ⟨_, rfl, fl, M, good_takeAvailable h hc hp spurious⟩
  | reserveAdd n => exact ⟨_, rfl, fl, M, good_reserveAdd h hc hp⟩
  | unreserveSub n =>
      obtain ⟨hle, hg⟩ := good_unreserveSub h hc hp
      simp only [Accounting.checkedAtomicSub, ge_iff_le, hle, if_true, Option.map_some]
      exact ⟨_, rfl, fl, M, hg⟩
  | unreserveAdd n => exact ⟨_, rfl, fl, M, good_unreserveAdd h hc hp⟩
  | allocLock level reserved =>
      obtain ⟨s', e, hg⟩ := good_search h hc hp (hlock (by rw [hp]; rfl))
      exact ⟨s', e, fl, M, hg⟩
  | commitReservedSub level L =>
      obtain ⟨hle, hg⟩ := good_commitReservedSub h hc hp
      simp only [Accounting.checkedAtomicSub, getPageCountByLevel_eq, ge_iff_le, hle, if_true,
        Option.map_some]
      exact ⟨_, rfl, fl, M, hg⟩
  | commitReservedAdd level L =>
      simp only [getPageCountByLevel_eq]
      exact ⟨_, rfl, fl, M, good_commitReservedAdd h hc hp⟩
  | commitAdd level L n => exact ⟨_, rfl, fl, M, good_commitAdd h hc hp⟩
  | take level L n =>
      obtain ⟨p, phys, e, fl', hg⟩ := good_take h hc hp
      simp only [e, Option.map_some]
      exact ⟨_, rfl, fl', M, hg⟩
  | freeZero ptr level reserved => exact ⟨_, rfl, fl, M, good_freeZero h hc hp⟩
  | freeLock ptr level reserved =>
      obtain ⟨s', e, fl', hg⟩ := good_freeLock h hc hp (hlock (by rw [hp]; rfl))
      exact ⟨s', e, fl', M, hg⟩
  | uncommitSub n reserved =>
      obtain ⟨hle, hg⟩ := good_uncommitSub h hc hp
      simp only [Accounting.checkedAtomicSub, ge_iff_le, hle, if_true, Option.map_some]
      exact ⟨_, rfl, fl, M, hg⟩
  | uncommitAdd n reserved =>
      refine ⟨_, ?_, fl, M, good_uncommitAdd h hc hp⟩
      cases reserved <;> rfl
  | addZero start end_ => exact ⟨_, rfl, fl, M, good_addZero h hc hp⟩
  | addLoop start end_ n =>
      refine good_addLoop h hc hp fun hlt => hlock ?_
      rw [hp]
      simpa [needsLock] using hlt
  | addTotal n => exact ⟨_, rfl, fl, M, good_addTotal h hc hp⟩
  | addAvailable n => exact ⟨_, rfl, fl, M, good_addAvailable h hc hp⟩
  | addCommittedTotal n => exact ⟨_, rfl, fl, M, good_addCommittedTotal h hc hp⟩
  | addCommitted n => exact ⟨_, rfl, fl, M, good_addCommitted h hc hp⟩

/-- A valid step succeeds, and what it leads to is good. -/
theorem good_exec (h : Good d s fl M) (hc : c < s.cpuCount) {a : Act} (hv : s.Valid d c a) :
    ∃ s', s.exec d c a = some s' ∧ ∃ fl M, Good d s' fl M := by
  cases a with
  | begin_ call =>
      obtain ⟨s', e, hg⟩ := good_begin h hc hv.1 hv.2
      exact ⟨s', e, fl, M, hg⟩
  | advance spurious => exact good_advance h hc hv.1 hv.2 spurious

theorem good_of_initial (h : Initial d n s) : Good d s (fun _ => []) ∅ := by
  obtain ⟨hmem, hbit, hacct, -, hlock, hpc, hcall, hheld, hlive, hranges, hearly⟩ := h
  have howned : s.owned = ∅ := by simp [owned, hlive, hpc, freeing]
  have hfree : freeBlocks (fun _ => []) = ∅ := by simp [freeBlocks]
  have hsum : ∀ f : CorePc → ℕ, f .idle = 0 → s.sum f = 0 := fun f hf => by simp [sum, hpc, hf]
  refine ⟨⟨?_, by simp [hlive], by simp [hlive], by simp [hpc, freeing], by simp,
    by simp [hpc, adding], by simp, by simp [hpc, adding], by simp [hpc, zeroed]⟩,
    ⟨?_, ?_, ?_, ?_⟩, by simp [hpc, hlock, critical], by simp [hpc, PcOk], by simp [hcall]⟩
  · rw [howned]
    refine ⟨hmem, fun _ _ => rfl, by simp, by simp, by simp, ?_, ?_, ?_, ?_, by simp, by simp,
      by simp, ?_, by simp⟩
    · rw [hfree]
      simpa using Tiling.empty
    · rw [hfree]
      simp
    · simp
    · simp
    · intro a _ _ _
      rw [Phys.buddyIsBlockFree_eq, hbit]
      simp
  · simp [hacct, hsum transit rfl]
  · simp [hacct, hsum slack rfl, freePages]
  · simp [hacct, hsum ahead rfl, freePages, hearly, marks]
  · simp [hacct, hheld]

theorem good_of_reachable (h : Reachable (Initial d n) (Step d) s) : ∃ fl M, Good d s fl M := by
  refine h.invariant (I := fun s => ∃ fl M, Good d s fl M)
    (fun s h0 => ⟨_, _, good_of_initial h0⟩) ?_
  rintro s s' ⟨fl, M, hg⟩ ⟨c, hc, a, hv, he⟩
  obtain ⟨s'', e, hg'⟩ := good_exec hg hc hv
  rw [he] at e
  exact Option.some.inj e ▸ hg'

/-- The counters of any moment, and no assertion fails: the pages that are accounted
never exceed the total, and are all of it when no call is in progress, no step of a
core fails, the free pages are at least the available and the reserved ones, and a
core that asks for a reserved page gets one. -/
theorem accounting_of_reachable (h : Reachable (Initial d n) (Step d) s) :
    s.phys.acct.available + s.phys.acct.committed + s.phys.acct.reserved ≤ s.phys.acct.total ∧
      ((∀ c < s.cpuCount, s.pc c = .idle) →
        s.phys.acct.available + s.phys.acct.committed + s.phys.acct.reserved =
          s.phys.acct.total) ∧
      (∀ c < s.cpuCount, ∀ a, s.Valid d c a → (s.exec d c a).isSome) ∧
      (∃ fl : FreeLists, (∀ l < 16, Chain s.phys.mem (d.head l) (fl l)) ∧
        (∀ l, 16 ≤ l → fl l = []) ∧
        s.phys.acct.available + s.phys.acct.reserved ≤
          (pagesIn (wholeCells (freeBlocks fl))).ncard) ∧
      ∀ c < s.cpuCount, s.call c = some (.allocReserved PAGE_SIZE) → s.pc c = .idle →
        s.result c ≠ none := by
  obtain ⟨fl, M, hg⟩ := good_of_reachable h
  have htotal := hg.counts.total
  refine ⟨by omega, ?_, ?_, ⟨fl, hg.owns.inv.chain, hg.owns.inv.empty, ?_⟩, ?_⟩
  · intro hidle
    have hzero : s.sum transit = 0 := Finset.sum_eq_zero fun c hc => by
      rw [hidle c (Finset.mem_range.mp hc)]
      rfl
    omega
  · intro c hc a hv
    obtain ⟨s', e, -⟩ := good_exec hg hc hv
    exact Option.isSome_iff_exists.mpr ⟨s', e⟩
  · have hfree := hg.counts.free
    rw [hg.owns.inv.ncard_free]
    omega
  · intro c _ hcall hpc
    have hpage := hg.pageCall c hcall
    rw [hpc] at hpage
    exact hpage

/-- Two cores before their first call. -/
def twoCores : Cores where
  cpuCount := 2
  phys := ⟨fun _ => 0, fun _ => 0, ⟨0, 0, 0, 0⟩⟩
  lock := none
  pc := fun _ => .idle
  call := fun _ => none
  result := fun _ => none
  held := fun _ => 0
  live := []
  ranges := []
  early := 0

/-- One core adds a page while the other one is in the middle of a reservation. -/
theorem accounting_twoCores : ∃ s : Cores, s.pc 0 = .addZero (2 ^ 21) (2 ^ 21 + 4096) ∧
    s.pc 1 = .exchange 1 0 .reserve ∧
    s.phys.acct.available + s.phys.acct.committed + s.phys.acct.reserved ≤ s.phys.acct.total := by
  have h0 : Reachable (Initial Clients.onePageMap 2) (Step Clients.onePageMap) twoCores :=
    .start ⟨fun _ _ => rfl, fun _ => rfl, rfl, rfl, rfl, fun _ => rfl, fun _ => rfl, fun _ => rfl,
      rfl, rfl, rfl⟩
  have h1 := h0.next ⟨0, by decide, .begin_ (.addMemory (2 ^ 21) (2 ^ 21 + 4096)),
    ⟨rfl, by decide, by decide, by decide, le_rfl, le_rfl, by simp [added, twoCores]⟩, rfl⟩
  have h2 := h1.next ⟨1, by decide, .begin_ (.reserve 1), ⟨rfl, trivial⟩, rfl⟩
  have h3 := h2.next ⟨1, by decide, .advance false, ⟨by decide, by decide⟩, rfl⟩
  exact ⟨_, rfl, rfl, (accounting_of_reachable h3).1⟩

end Cores

end Tomato
