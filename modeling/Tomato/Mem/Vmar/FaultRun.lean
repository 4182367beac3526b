import Tomato.Mem.Vmar.PagesRun

/-!
# Page faults in every reachable state

What a page fault does to the leaf entries and the counters, for every address and every error
code.
-/

namespace Tomato

open RbTree Ranges Forest Transition Blocks Vmars

namespace Vmm

section

variable (k : Kernel) (s s' : Vmm) (address errorCode : ℕ)

/-- The page with the address got a frame from the reservation, and no other page changed. -/
structure PageAdded : Prop where
  absent : s.virt.flatMap k.d (pageNumber address) &&& IA32_PG_P = 0
  present : s'.virt.flatMap k.d (pageNumber address) &&& IA32_PG_P ≠ 0
  others : ∀ n < 2 ^ 36, n ≠ pageNumber address →
    s'.virt.flatMap k.d n = s.virt.flatMap k.d n
  reserved : 1 ≤ s.virt.phys.acct.reserved
  acct : s'.virt.phys.acct = { s.virt.phys.acct with
    reserved := s.virt.phys.acct.reserved - 1
    committed := s.virt.phys.acct.committed + 1 }
  frame : ∃ n, s.virt.FreePages k.d (n + 1) ∧ s'.virt.FreePages k.d n

/-- The fault is one of a page that is to be populated, in a mapping of the right region. -/
structure FaultAllowed : Prop where
  bits : errorCode &&& (IA32_PF_EC_USER ||| IA32_PF_EC_WRITE ||| IA32_PF_EC_PROT |||
    IA32_PF_EC_INSTR) = errorCode
  prot : errorCode &&& IA32_PF_EC_PROT = 0
  instr : errorCode &&& IA32_PF_EC_INSTR = 0
  mapping : ∃ m, s.LinkedMapping m ∧ s.vmars.Contains m address ∧
    Below s.vmars.parent m
      (if errorCode &&& IA32_PF_EC_USER ≠ 0 ∨ address < s.vmars.base k.kernelRegion
        then k.userRegion else k.kernelRegion)
  user : errorCode &&& IA32_PF_EC_USER ≠ 0 →
    virtIsUserAddress address = true ∧ ¬ s.vmars.Contains k.kernelRegion address

/-- The fault was served. The lock of the mapping and its references are as before. -/
structure FaultServed : Prop where
  allowed : s.FaultAllowed k address errorCode
  vmars : s'.vmars = s.vmars
  page : (s.virt.flatMap k.d (pageNumber address) &&& IA32_PG_P ≠ 0 ∧ s' = s) ∨
    s.PageAdded k s' address

/-- The handler stopped to kill the thread. The leaf entries and the counters are as before. -/
structure FaultStopped : Prop where
  user : errorCode &&& IA32_PF_EC_USER ≠ 0
  virt : s'.virt = s.virt
  vmars : ∃ refCount pageTableLock,
    s'.vmars = { s.vmars with refCount := refCount, pageTableLock := pageTableLock }

/-- How the handler may end. -/
def FaultEnds (res : FaultResult) : Prop :=
  (res = .returned (.ok ()) ∧ s.FaultServed k s' address errorCode) ∨
    (∃ e, res = .returned (.error e) ∧ s' = s) ∨
    (res = .killed ∧ s.FaultStopped s' errorCode)

end

variable {k : Kernel} {s s' : Vmm} {f : ℕ → ℕ} {vs : VirtState} {m address errorCode : ℕ}
  {globalPage : Bool}

theorem pageNumber_pageAddr_zero : pageNumber (pageAddr address 0) = pageNumber address := by
  have h : pageNumber (pageAddr address 0) ∈ rangeOf address 1 := ⟨0, Nat.one_pos, rfl⟩
  rw [rangeOf_one] at h
  exact h

/-- A page that is present is left as it is. -/
theorem exec_populate_present (hs : s.virt.HasSlot k.d (pageNumber address))
    (hp : s.virt.flatMap k.d (pageNumber address) &&& IA32_PG_P ≠ 0) :
    s.virt.exec k.d k.entries (.populate address 1 globalPage) = some s.virt := by
  obtain ⟨p, hp'⟩ := Option.isSome_iff_exists.mp hs
  have hfind : s.virt.phys.virtFindPte k.d s.virt.pageTable (pageAddr address 0) =
      some (p, s.virt.phys) := by
    rw [Phys.virtFindPte_eq, pageNumber_pageAddr_zero, hp', Option.map_some]
  have hv : s.virt.phys.mem p &&& IA32_PG_P ≠ 0 := by
    rwa [VirtState.flatMap, Phys.leafEntry_of_slot hp'] at hp
  have hrun : s.virt.phys.virtPopulate k.d s.virt.pageTable address 1 globalPage =
      some s.virt.phys := by
    simp only [Phys.virtPopulate, forPages, Option.bind_some, Option.bind_eq_bind, hfind, if_pos hv]
  simp only [VirtState.exec, hrun, Option.map_some]
  rfl

/-- The free pages are those that are available or reserved. -/
theorem Ok.freePages (h : s.Ok k f) : s.virt.FreePages k.d
    (s.virt.phys.acct.available + s.virt.phys.acct.reserved) := by
  obtain ⟨-, fl, live, hv⟩ := h.good.late h.handedOver
  exact ⟨fl, hv.ok.inv.chain, hv.ok.pages⟩

/-- A page of the region of the user is no page of the kernel. -/
theorem Ok.user_of_below (h : s.Ok k f) (hb : Below s.vmars.parent m k.userRegion)
    (hp : s.vmars.parent m ≠ none) (hc : s.vmars.Contains m address) :
    virtIsUserAddress address = true ∧ ¬ s.vmars.Contains k.kernelRegion address := by
  have hpage := h.tree.nested.subset hb ((h.contains_iff hp).mp hc)
  rw [Vmars.pages, Set.mem_Ico, Vmars.pageEnd, Vmars.vmarFirstPage_eq, h.userRegion.1,
    h.userRegion.2] at hpage
  refine ⟨?_, fun hk => ?_⟩
  · have hend : vmarEnd USER_REGION_BASE USER_REGION_PAGE_COUNT = (2 ^ 35 - 1) * 4096 - 1 := rfl
    rw [virtIsUserAddress, hend, decide_eq_true_eq]
    omega
  · have hle := hk.1
    rw [h.kernelRegion.1, show KERNEL_REGION_BASE = 0xFFFF800000000000 from rfl] at hle
    omega

/-- The page of a fault was present, or gets one of the reserved pages. -/
theorem FaultDone.served (hd : FaultDone k s vs m address errorCode) (h : s.Ok k f)
    (hpg : s.PagesOk k) : s.FaultServed k (s.setVirt vs) address errorCode := by
  obtain ⟨hp, -⟩ := h.linked_of_below hd.below (h.kind_faultRoot address errorCode) hd.kind
  have hpage : rangeOf address 1 ⊆ s.vmars.pageNumbers m := by
    rw [rangeOf_one, Set.singleton_subset_iff]
    exact pageNumber_mem ((h.contains_iff hp).mp hd.contains)
  have hn : pageNumber address ∈ rangeOf address 1 := by rw [rangeOf_one]; rfl
  have hmapped : pageNumber address ∈ s.mapped := pageNumbers_subset hp hd.kind (hpage hn)
  refine ⟨⟨hd.bits, hd.prot, hd.instr, ⟨m, ⟨hp, hd.kind⟩, hd.contains, hd.below⟩, fun hu => ?_⟩, rfl,
    ?_⟩
  · have hb := hd.below
    rw [faultRoot, if_pos (Or.inl hu)] at hb
    exact h.user_of_below hb hp hd.contains
  by_cases hpres : s.virt.flatMap k.d (pageNumber address) &&& IA32_PG_P = 0
  swap
  · have he := hd.exec.symm.trans (exec_populate_present (hpg.tables _ hmapped) hpres)
    rw [Option.some.inj he]
    exact Or.inl ⟨hpres, rfl⟩
  obtain ⟨vs', e, hok, -, hch, hpop, hacct⟩ := hpg.populate h hp hd.kind (by norm_num) hpage
  obtain rfl : vs' = vs := by
    obtain ⟨w, ew, hw⟩ := Option.map_eq_some_iff.mp e
    rw [← show w = vs' from congrArg Vmm.virt hw]
    exact Option.some.inj (ew.symm.trans hd.exec)
  have hzero := (hpg.absent_iff (pageNumber_lt address)).mp hpres
  have hcount : unpopulated (s.virt.flatMap k.d) address 1 = 1 := by
    rw [unpopulated_succ, pageNumber_pageAddr_zero, if_pos hzero]
    rfl
  have hres : 1 ≤ s.virt.phys.acct.reserved := by
    rw [hpg.reserved, Nat.one_le_iff_ne_zero, ← Nat.pos_iff_ne_zero,
      Set.ncard_pos (finite_empty s k)]
    exact ⟨_, hmapped, hzero⟩
  have hacct' : vs'.phys.acct = { s.virt.phys.acct with
      reserved := s.virt.phys.acct.reserved - 1
      committed := s.virt.phys.acct.committed + 1 } := by
    rw [hacct, Phys.populatedRange, hcount]
  refine Or.inr ⟨hpres, ?_, fun n hlt hne => hch.leaf n hlt ?_, hres, hacct',
    s.virt.phys.acct.available + (s.virt.phys.acct.reserved - 1), ?_, ?_⟩
  · rcases hpop _ hn with ⟨hc, -⟩ | ⟨-, hnew, -⟩
    · exact absurd hpres hc
    · exact hnew
  · rw [rangeOf_one]
    exact hne
  · have hfree := h.freePages
    rwa [← Nat.sub_add_cancel hres, ← Nat.add_assoc] at hfree
  · have hfree := hok.freePages
    change vs'.FreePages k.d (vs'.phys.acct.available + vs'.phys.acct.reserved) at hfree
    rwa [hacct'] at hfree

theorem FaultKilled.stopped (h : FaultKilled s s') (hu : errorCode &&& IA32_PF_EC_USER ≠ 0) :
    s.FaultStopped s' errorCode := by
  rcases h with rfl | ⟨m, rfl⟩
  · exact ⟨hu, rfl, _, _, rfl⟩
  · exact ⟨hu, rfl, _, _, rfl⟩

end Vmm

variable {k : Kernel} {r : VmmRun}

/-- A page fault is served by the page that it asks for, or it changes nothing. -/
theorem pageFault_of_reachable (h : Reachable (VmmRun.Initial k) (VmmRun.Step k) r)
    (address errorCode : ℕ) : ∃ n res s', (∀ fuel, n < fuel →
      r.vmm.virtPageFaultHandler k fuel address errorCode = some (res, s')) ∧
      r.vmm.FaultEnds k s' address errorCode res := by
  obtain ⟨hok, hpg⟩ := VmmRun.good_of_reachable h
  obtain ⟨n, res, s', e, hends⟩ := hok.virtPageFaultHandler hpg address errorCode
  refine ⟨n, res, s', e, ?_⟩
  rcases hends with ⟨m, vs, rfl, rfl, -, -, hd⟩ | hfail | ⟨rfl, hu, hkill⟩
  · exact Or.inl ⟨rfl, hd.served hok hpg⟩
  · exact Or.inr (Or.inl hfail)
  · exact Or.inr (Or.inr ⟨rfl, hkill.stopped hu⟩)

theorem pageFault_smallKernel : ∃ r, VmmRun.Initial smallKernel r ∧ ∃ n res s',
    (∀ fuel, n < fuel →
      r.vmm.virtPageFaultHandler smallKernel fuel 0 IA32_PF_EC_USER = some (res, s')) ∧
      r.vmm.FaultEnds smallKernel s' 0 IA32_PF_EC_USER res := by
  obtain ⟨r, h⟩ := exists_initial
  exact ⟨r, h, pageFault_of_reachable (.start h) _ _⟩

end Tomato
