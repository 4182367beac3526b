import Tomato.Mem.Phys.ConcurrentSteps

/-!
# The steps that move blocks

The steps of a call that change the memory or the partition: the end of an allocation,
the two halves of a free, and the loop of `phys_add_memory`.
-/

namespace Tomato

open Blocks

namespace Cores

variable {d : DirectMap} {s s' : Cores} {fl fl' : FreeLists} {M M' : Set ℕ}
  {c n level L ptr start end_ : ℕ} {pc' : CorePc} {reserved : Bool}

/-- A step that adds no memory. -/
theorem Owns.step_same (h : Owns d s fl M) (hpc : s'.pc = Function.update s.pc c pc')
    (hranges : s'.ranges = s.ranges) (hadd : adding pc' = adding (s.pc c))
    (hinv : s'.phys.Inv d fl' s'.owned ∅ M) (hnodup : s'.live.Nodup)
    (hlive : ∀ i, i ≠ c → ∀ b, freeing (s.pc i) = some b → b ∉ s'.live)
    (hlive' : ∀ b, freeing pc' = some b → b ∉ s'.live)
    (hfree : ∀ b, freeing pc' = some b → freeing (s.pc c) = some b ∨ b ∈ s.live)
    (hmem : ∀ i, i ≠ c → ∀ a ∈ zeroed (s.pc i), s'.phys.mem a = s.phys.mem a)
    (hzero : ∀ a ∈ zeroed pc', s'.phys.mem a = 0) : Owns d s' fl' M := by
  have hadded : s'.added = s.added := by simp only [added, hranges]
  refine h.step hpc hinv hnodup hlive hlive' hfree (hadded ▸ h.subset_added) hadded.ge ?_
    (hadd ▸ h.adding_M c) (fun i _ => h.adding_M i) (fun i hi => hadd ▸ h.adding_ne i c hi)
    hmem hzero
  rw [hadd, hadded]
  exact h.adding_subset c

section

variable (h : Good d s fl M) (hc : c < s.cpuCount)
include h hc

/-- The block that was found is still there, since the lock was held all the time. -/
theorem good_take (hpc : s.pc c = .take level L n) :
    ∃ p phys, s.phys.takeBlock d level L = some (p, phys) ∧
      ∃ fl', Good d ({ s with phys := phys, lock := none, live := block p level :: s.live }.finish c
        (some p)) fl' M := by
  have hok := h.pcOk c
  have hl := h.lock c
  rw [hpc] at hok hl
  have hlock : s.lock = some c := hl.mp rfl
  obtain ⟨⟨hle, hL, hne⟩, rfl⟩ := hok
  obtain ⟨p, s1, fl', e, hacct, ha, -⟩ :=
    Phys.takeBlock_acct h.owns.inv hle hL hne s.phys.acct
  have hnew : ∀ b, b ∈ s.owned → b ≠ block p level := by
    rintro b hb rfl
    exact ha.fresh hb
  have hfc : freeing (s.pc c) = none := by rw [hpc]; rfl
  refine ⟨p, s1, e, fl', h.step hc rfl (fun _ _ => rfl) (fun i hi => ⟨rfl, finish_result_ne hi⟩)
    (Or.inl (h.not_critical (Or.inr hlock))) (Or.inr ⟨rfl, Or.inl ⟨by rw [hpc]; rfl, rfl⟩⟩)
    trivial ?_ ?_ ?_⟩
  · intro _ hnone
    simp [finish] at hnone
  · refine h.owns.step_same rfl rfl (by rw [hpc]; rfl) ?_ ?_ ?_ (by simp [freeing])
      (by simp [freeing]) ?_ (by simp [zeroed])
    · have howned : ({ s with phys := s1, lock := none, live := block p level :: s.live }.finish c
          (some p)).owned = s.owned ∪ {block p level} := by
        rw [Owns.owned_step (s := s) (show _ = Function.update s.pc c .idle from rfl),
          Owns.owned_self (c := c), hfc, show freeing .idle = none from rfl]
        ext b
        simp only [finish, setPc_live, setResult_live, List.mem_cons, Set.mem_ofPred_eq,
          Set.mem_union, Set.mem_singleton_iff]
        rw [or_assoc, or_comm]
      rw [howned]
      exact ha.inv
    · exact List.nodup_cons.mpr ⟨fun hmem => hnew _ (Or.inl hmem) rfl, h.owns.nodup⟩
    · intro i _ b hb hmem
      rcases List.mem_cons.mp hmem with rfl | hmem
      · exact hnew _ (Or.inr ⟨i, hb⟩) rfl
      · exact h.owns.freeing_live i b hb hmem
    · intro i _ a hza
      exact ha.frame a (h.owns.zeroed_notMem_free hza) (h.owns.zeroed_notMem_head hza)
  · have hpages := ha.freePages
    refine h.counts.step hc rfl rfl (Function.update_eq_self c s.held).symm ?_ ?_ ?_ ?_
    all_goals simp only [hpc, finish, setPc_phys, setResult_phys, setPc_early, setResult_early,
      hacct, transit, slack, ahead] <;> omega

theorem good_freeZero (hpc : s.pc c = .freeZero ptr level reserved) :
    Good d ({ s with phys := { s.phys with
      mem := s.phys.mem.zero ptr (blockSize level) } }.setPc c (.freeLock ptr level reserved))
      fl M := by
  have hok := h.pcOk c
  rw [hpc] at hok
  have hb : freeing (s.pc c) = some (block ptr level) := by rw [hpc]; rfl
  have hball : block ptr level ∈ freeBlocks fl ∪ s.owned ∪ ∅ := Owns.mem_owned_of_freeing hb
  have hcells : ∀ a, a ∉ (block ptr level).cells →
      s.phys.mem.zero ptr (blockSize level) a = s.phys.mem a := by
    intro a ha
    refine Memory.zero_of_notMem _ ?_
    rw [blockSize_eq]
    simp only [Block.mem_cells, block] at ha
    omega
  refine h.step hc rfl (fun _ _ => rfl) (fun _ _ => ⟨rfl, rfl⟩) (Or.inr rfl)
    (Or.inr ⟨rfl, Or.inr ⟨by rw [hpc]; rfl, rfl⟩⟩) hok ?_ ?_ ?_
  · intro hcall
    have := h.pageCall c hcall
    rw [hpc] at this
    exact this.elim
  · refine h.owns.step_same rfl rfl (by rw [hpc]; rfl) ?_ h.owns.nodup
      (fun i _ b hib => h.owns.freeing_live i b hib)
      (fun b hb' => h.owns.freeing_live c b (by rw [hb]; exact hb'))
      (fun b hb' => Or.inl (by rw [hb]; exact hb')) ?_ ?_
    · have howned : ({ s with phys := { s.phys with mem := s.phys.mem.zero ptr (blockSize level) } }.setPc
          c (.freeLock ptr level reserved)).owned = s.owned := by
        rw [Owns.owned_step rfl, Owns.owned_self (c := c), hb]
        rfl
      rw [howned]
      refine h.owns.inv.congr_mem (fun l hl => hcells _ fun hc =>
        h.owns.inv.head_ne hl hball hc rfl) ?_
      intro l p hp a ha
      refine hcells a fun hcell => h.owns.inv.free_ne hp (Or.inl (Or.inr ⟨c, hb⟩)) ?_
      exact h.owns.inv.tiling.eq_of_mem (Phys.Inv.mem_all_of_free hp) hball ha hcell
    · exact fun i hi a ha => hcells a (h.owns.zeroed_notMem_freeing ha hi hb)
    · intro a ha
      refine Memory.zero_of_mem _ ha.1 ?_
      rw [blockSize_eq]
      exact ha.2
  · refine h.counts.step hc rfl rfl (Function.update_eq_self c s.held).symm ?_ ?_ ?_ rfl
    all_goals rw [hpc]; rfl

/-- The block goes back to the free lists, its pages are uncommitted afterwards. -/
theorem good_freeLock (hpc : s.pc c = .freeLock ptr level reserved) (hlock : s.lock = none) :
    ∃ s', s.freeBlock d c ptr level reserved = some s' ∧ ∃ fl', Good d s' fl' M := by
  have hok := h.pcOk c
  rw [hpc] at hok
  obtain ⟨hlt, hres⟩ := hok
  have hb : freeing (s.pc c) = some (block ptr level) := by rw [hpc]; rfl
  obtain ⟨L, s1, fl', e, hf⟩ := Phys.physFreeInternal_spec hlt h.owns.inv (Or.inr ⟨c, hb⟩)
    fun a ha => h.owns.zero c a (by rw [hpc]; exact ha)
  -- the step leads to a state that still has to uncommit the pages
  have hgood : ∀ s' : Cores, ∀ pc', s'.cpuCount = s.cpuCount → s'.phys = s1 →
      s'.pc = Function.update s.pc c pc' → s'.lock = s.lock → s'.live = s.live →
      s'.ranges = s.ranges → s'.early = s.early → s'.held = s.held → s'.call = s.call →
      (∀ i, i ≠ c → s'.result i = s.result i) → critical pc' = false → freeing pc' = none →
      adding pc' = ∅ → zeroed pc' = ∅ → transit pc' = 0 → slack pc' = commitCount level L →
      ahead pc' = commitCount level L → PcOk d fl' (s.held c) pc' → Good d s' fl' M := by
    intro s' pc' hcpu hphys hpc' hlock' hlive hranges hearly hheld hcall hresult hcrit hfr hadd
      hzero htr hsl hah hok'
    refine h.step hc hpc' (fun _ _ => by rw [hheld]) (fun i hi => ⟨by rw [hcall], hresult i hi⟩)
      (Or.inl (h.not_critical (Or.inl hlock)))
      (Or.inr ⟨hcrit, Or.inr ⟨by rw [hpc]; rfl, hlock'⟩⟩) (by rw [hheld]; exact hok') ?_ ?_ ?_
    · intro hcall'
      have := h.pageCall c (by rw [← hcall]; exact hcall')
      rw [hpc] at this
      exact this.elim
    · refine h.owns.step_same hpc' hranges (by rw [hadd, hpc]; rfl) ?_ (hlive ▸ h.owns.nodup)
        (fun i _ b hib => hlive ▸ h.owns.freeing_live i b hib) (by simp [hfr]) (by simp [hfr])
        ?_ (by simp [hzero])
      · rw [hphys, show s'.owned = s.owned \ {block ptr level} from ?_]
        · exact hf.inv
        rw [Owns.owned_step hpc', Owns.owned_self (c := c), hlive, hfr, hb]
        ext b
        simp only [Set.mem_ofPred_eq, Set.mem_sdiff, Set.mem_singleton_iff, Option.some.injEq,
          reduceCtorEq, false_or]
        constructor
        · rintro (hbl | ⟨i, hi, hib⟩)
          · exact ⟨Or.inl hbl, by rintro rfl; exact h.owns.freeing_live c _ hb hbl⟩
          · exact ⟨Or.inr (Or.inr ⟨i, hi, hib⟩), h.owns.freeing_ne hi hib hb⟩
        · rintro ⟨hbl | rfl | hib, hne⟩
          · exact Or.inl hbl
          · exact absurd rfl hne
          · exact Or.inr hib
      · intro i hi a ha
        rw [hphys]
        refine hf.frame a ?_ (h.owns.zeroed_notMem_head ha)
        rintro (hfree | hcell)
        · exact h.owns.zeroed_notMem_free ha hfree
        · exact h.owns.zeroed_notMem_freeing ha hi hb hcell
    · have hpages := hf.freePages
      have hacct : s'.phys.acct = s.phys.acct := by rw [hphys, hf.acct]
      refine h.counts.step hc hcpu hpc'
        (by rw [hheld]; exact (Function.update_eq_self c s.held).symm) ?_ ?_ ?_ (by rw [hacct])
      · simp only [hacct, hpc, htr, show transit (.freeLock ptr level reserved) = 0 from rfl]
      · simp only [hacct, hpc, hsl, show slack (.freeLock ptr level reserved) = 0 from rfl]
        omega
      · simp only [hacct, hpc, hah, hearly, show ahead (.freeLock ptr level reserved) = 0 from rfl]
        omega
  simp only [freeBlock, e, Option.map_some, getPageCountByLevel_eq]
  by_cases h6 : 6 ≤ level
  · rw [if_pos (show level ≥ PHYS_BUDDY_PAGE_LEVEL from h6)]
    have hcount : 2 ^ (level - 6) = commitCount level L := (if_pos h6).symm
    exact ⟨_, rfl, fl', hgood _ _ rfl rfl rfl rfl rfl rfl rfl rfl rfl (fun _ _ => rfl) rfl rfl
      rfl rfl rfl hcount hcount trivial⟩
  · rw [if_neg (show ¬ level ≥ PHYS_BUDDY_PAGE_LEVEL from h6)]
    by_cases hL6 : 6 ≤ L
    · rw [if_pos (show L ≥ PHYS_BUDDY_PAGE_LEVEL from hL6)]
      have hcount : 1 = commitCount level L := by simp [commitCount, h6, hL6]
      exact ⟨_, rfl, fl', hgood _ _ rfl rfl rfl rfl rfl rfl rfl rfl rfl (fun _ _ => rfl) rfl rfl
        rfl rfl rfl hcount hcount trivial⟩
    · rw [if_neg (show ¬ L ≥ PHYS_BUDDY_PAGE_LEVEL from hL6)]
      have hcount : 0 = commitCount level L := by simp [commitCount, h6, hL6]
      exact ⟨_, rfl, fl', hgood _ _ rfl rfl rfl rfl rfl rfl rfl rfl rfl
        (fun i hi => finish_result_ne hi) rfl rfl rfl rfl rfl hcount hcount trivial⟩

theorem good_addZero (hpc : s.pc c = .addZero start end_) :
    Good d ({ s with phys := { s.phys with
      mem := s.phys.mem.zero start (end_ - start) } }.setPc c
        (.addLoop start end_ ((end_ - start) / PAGE_SIZE))) fl M := by
  have hok := h.pcOk c
  rw [hpc] at hok
  obtain ⟨hs, he, hle, hend⟩ := hok
  have hadd : adding (s.pc c) = Set.Ico start end_ := by rw [hpc]; rfl
  have hcells : ∀ a, a ∉ adding (s.pc c) →
      s.phys.mem.zero start (end_ - start) a = s.phys.mem a := by
    intro a ha
    refine Memory.zero_of_notMem _ ?_
    rw [hadd, Set.mem_Ico] at ha
    omega
  refine h.step hc rfl (fun _ _ => rfl) (fun _ _ => ⟨rfl, rfl⟩) (Or.inr rfl)
    (Or.inr ⟨rfl, Or.inr ⟨by rw [hpc]; rfl, rfl⟩⟩) ⟨hs, he, hle, hend, le_rfl⟩ ?_ ?_ ?_
  · intro hcall
    have := h.pageCall c hcall
    rw [hpc] at this
    exact this.elim
  · refine h.owns.step_same rfl rfl (by rw [hadd]; rfl) ?_ h.owns.nodup
      (fun i _ b hib => h.owns.freeing_live i b hib) (by simp [freeing]) (by simp [freeing]) ?_ ?_
    · have howned : ({ s with phys := { s.phys with mem := s.phys.mem.zero start (end_ - start) } }.setPc
          c (.addLoop start end_ ((end_ - start) / PAGE_SIZE))).owned = s.owned := by
        rw [Owns.owned_step rfl, Owns.owned_self (c := c), hpc]
        rfl
      rw [howned]
      refine h.owns.inv.congr_mem (fun l hl => hcells _ fun hc =>
        Phys.Inv.head_notMem_range hl (h.owns.adding_subset _ hc).2) ?_
      exact fun l p hp a ha => hcells a
        (h.owns.notMem_adding (Phys.Inv.mem_all_of_free hp) ha)
    · exact fun i hi a ha => hcells a (h.owns.zeroed_notMem_adding ha hi)
    · exact fun a ha => Memory.zero_of_mem _ ha.1 (by have := ha.2; omega)
  · refine h.counts.step hc rfl rfl (Function.update_eq_self c s.held).symm ?_ ?_ ?_ rfl
    · rw [hpc]; rfl
    · rw [hpc]
      simp only [slack, setPc_phys, PAGE_SIZE, PAGE_SHIFT, Nat.one_shiftLeft]
      omega
    · rw [hpc]; rfl

/-- One block of the range goes to the free lists, and becomes available with the rest. -/
theorem good_addLoop (hpc : s.pc c = .addLoop start end_ n)
    (hlock : start < end_ → s.lock = none) :
    ∃ s', s.addBlock d c start end_ n = some s' ∧ ∃ fl' M', Good d s' fl' M' := by
  have hok := h.pcOk c
  rw [hpc] at hok
  obtain ⟨hs, he, hle, hend, hn⟩ := hok
  have hadd : adding (s.pc c) = Set.Ico start end_ := by rw [hpc]; rfl
  have hsub := h.owns.adding_subset c
  have hM := h.owns.adding_M c
  rw [hadd] at hsub hM
  have hfc : freeing (s.pc c) = none := by rw [hpc]; rfl
  unfold addBlock
  by_cases hlt : start < end_
  · rw [if_pos hlt]
    obtain ⟨l, L, s1, fl', e, e1, h6, hal, hfit, hpage, hf, hM1, hz1⟩ :=
      Phys.addBlock_spec (by have := d.top; omega) hs he hlt h.owns.inv hM
        (fun a ha => (hsub ha).2) fun a ha => h.owns.zero c a (by rw [hpc]; exact ha)
    have hpos : 0 < 2 ^ (l + 6) := Nat.two_pow_pos _
    have hcell : (block start l).cells ⊆ Set.Ico start end_ := fun a ha =>
      ⟨ha.1, lt_of_lt_of_le ha.2 hfit⟩
    have hrest : Set.Ico (start + 2 ^ (l + 6)) end_ ⊆ Set.Ico start end_ :=
      Set.Ico_subset_Ico_left (by omega)
    have hother : ∀ i, i ≠ c → Disjoint (adding (s.pc i)) (Set.Ico start end_) := fun i hi =>
      hadd ▸ h.owns.adding_ne i c hi
    simp only [e, Option.bind_some, e1, Option.map_some, blockSize_eq]
    refine ⟨_, rfl, fl', M ∪ (block start l).cells, h.step hc rfl (fun _ _ => rfl)
      (fun _ _ => ⟨rfl, rfl⟩) (Or.inl (h.not_critical (Or.inl (hlock hlt))))
      (Or.inr ⟨rfl, Or.inr ⟨by rw [hpc]; rfl, rfl⟩⟩)
      ⟨hs.add ⟨_, hpage⟩, he, hfit, hend, by omega⟩ ?_ ?_ ?_⟩
    · intro hcall
      have := h.pageCall c hcall
      rw [hpc] at this
      exact this.elim
    · refine h.owns.step rfl ?_ h.owns.nodup (fun i _ b hib => h.owns.freeing_live i b hib)
        (by simp [freeing]) (by simp [freeing]) ?_ (Set.Subset.refl _) (hrest.trans hsub) hM1 ?_
        (fun i hi => (hother i hi).mono_right hrest) ?_ hz1
      · have howned : ({ s with phys := s1 }.setPc c
            (.addLoop (start + 2 ^ (l + 6)) end_ n)).owned = s.owned := by
          rw [Owns.owned_step rfl, Owns.owned_self (c := c), hfc]
          rfl
        rw [howned]
        exact hf.inv
      · exact Set.union_subset h.owns.subset_added fun a ha => (hsub (hcell ha)).1
      · intro i hi
        rw [Set.disjoint_union_right]
        exact ⟨h.owns.adding_M i, (hother i hi).mono_right hcell⟩
      · intro i hi a ha
        refine hf.frame a ?_ (h.owns.zeroed_notMem_head ha)
        rintro (hfree | hab)
        · exact h.owns.zeroed_notMem_free ha hfree
        · exact h.owns.zeroed_notMem_adding ha hi (by rw [hadd]; exact hcell hab)
    · have hpages := hf.freePages
      have hacct := hf.acct
      have hcount : commitCount l L = 2 ^ (l - 6) := if_pos h6
      have hcard : (pagesIn (M ∪ (block start l).cells)).ncard =
          (pagesIn M).ncard + 2 ^ (l - 6) := by
        rw [pagesIn, marks_union, Set.ncard_union_eq (disjoint_marks (hM.mono_left hcell).symm)
          (marks_finite h.owns.inv.finite) (marks_finite (Set.finite_Ico _ _)),
          ncard_marks_cells hal (show 12 ≤ l + 6 by omega)]
        congr 2
      refine h.counts.step hc rfl rfl (Function.update_eq_self c s.held).symm ?_ ?_ ?_ ?_
      all_goals simp only [setPc_phys, setPc_early, hacct, hpc, transit, slack, ahead, hcard]
      · omega
      · omega
  · rw [if_neg hlt]
    refine ⟨_, rfl, fl, M, h.counter hc hpc rfl rfl rfl (Function.update_eq_self c s.held).symm
      ⟨rfl, rfl, rfl, rfl⟩ (fun _ _ => rfl) ⟨rfl, ?_, ?_⟩ (Or.inr ⟨rfl, Or.inr ⟨rfl, rfl⟩⟩)
      trivial False.elim rfl ?_ rfl rfl⟩
    · exact (Set.Ico_eq_empty hlt).symm
    · exact (Set.Ico_eq_empty hlt).symm
    · simp only [setPc_phys, slack]
      omega

end

end Cores

end Tomato
