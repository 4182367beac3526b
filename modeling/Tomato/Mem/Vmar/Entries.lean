import Tomato.Mem.Vmar.Pages

/-!
# The entries of a mapping

The functions of the page table go over pages of a linked mapping, while it is locked. They
find all the tables they need, and enough reserved pages, so that they return.
-/

namespace Tomato

open RbTree Ranges Forest Transition Blocks Vmars

namespace Vmm

variable {k : Kernel} {s s' : Vmm} {f : ℕ → ℕ} {x n base pageCount : ℕ} {c : VirtCall}

/-- An entry that is not for a global page has no `IA32_PG_G`. -/
theorem populatedEntry_and_pageG {phys : ℕ} {user : Bool} (h : 4096 ∣ phys) :
    Phys.populatedEntry phys false user &&& IA32_PG_G = 0 := by
  have hq : phys &&& IA32_PG_G = 0 := and_two_pow_of_dvd (i := 8) h (by norm_num)
  rw [Phys.populatedEntry_eq, Nat.and_or_distrib_right, hq]
  cases user <;> rfl

/-- The call on the page table does not look at the vmars. -/
theorem execVirt_setVmars (s : Vmm) (v : Vmars) (c : VirtCall) :
    (s.setVmars v).execVirt k c = (s.execVirt k c).map (·.setVmars v) := by
  rw [execVirt, execVirt, Option.map_map]
  rfl

/-- A mapping is locked for a call on the page table. -/
theorem Ok.locked_exec (h : s.Ok k f) (x : ℕ) : ∃ v, s.vmars.lockPageTable x = some v ∧
    v.base = s.vmars.base ∧ v.pageCount = s.vmars.pageCount ∧ v.locked = s.vmars.locked ∧
    v.unmapped = s.vmars.unmapped ∧ v.unlockPageTable x = s.vmars ∧
    ∀ c, ((s.setVmars v).execVirt k c).map (fun s => s.setVmars (s.vmars.unlockPageTable x)) =
      s.execVirt k c := by
  obtain ⟨v, e, -, hv, hun⟩ := h.lockPageTable x
  refine ⟨v, e, by rw [hv], by rw [hv], by rw [hv], by rw [hv], hun, fun c => ?_⟩
  rw [execVirt_setVmars, Option.map_map, Vmm.execVirt, Option.map_map]
  congr 1
  funext vs
  simp only [Function.comp_apply, setVmars, hun]
  rfl

/-- Entries that are empty and in a mapping are reserved for. -/
theorem PagesOk.unpopulated_le (h : s.PagesOk k) (hlen : pageCount ≤ 2 ^ 36)
    (hsub : rangeOf base pageCount ⊆ s.mapped) :
    unpopulated (s.virt.flatMap k.d) base pageCount =
      {n | n ∈ rangeOf base pageCount ∧ s.virt.flatMap k.d n = 0}.ncard ∧
    unpopulated (s.virt.flatMap k.d) base pageCount ≤ s.virt.phys.acct.reserved := by
  have hcount : unpopulated (s.virt.flatMap k.d) base pageCount =
      {n | n ∈ rangeOf base pageCount ∧ s.virt.flatMap k.d n = 0}.ncard := countPages_eq_ncard hlen
  refine ⟨hcount, ?_⟩
  rw [hcount, h.reserved]
  exact Set.ncard_le_ncard (fun n hn => ⟨hsub hn.1, hn.2⟩) (finite_empty s k)

/-- The pages of a linked mapping. -/
theorem pageNumbers_subset (hp : s.vmars.parent x ≠ none) (hk : s.vmars.kind x = .mapping) :
    s.vmars.pageNumbers x ⊆ s.mapped := fun _ hn => ⟨x, hp, hk, hn⟩

/-- A call on the page table that changed pages of mappings only. -/
theorem Ok.execVirt_of {vs : VirtState} (h : s.Ok k f)
    (e : s.virt.exec k.d k.entries c = some vs) (hv : s.virt.Valid k.d c)
    (hc : ∀ c', c ≠ .client c') :
    s.execVirt k c = some (s.setVirt vs) ∧ (s.setVirt vs).Ok k f := by
  have he : s.execVirt k c = some (s.setVirt vs) := by rw [Vmm.execVirt, e, Option.map_some]
  exact ⟨he, (h.execVirt ⟨hv, fun _ _ _ => ⟨hc _, hc _⟩⟩ he).1⟩

/-- The pages of a linked mapping that is not locked are freed. -/
theorem PagesOk.free (hpg : s.PagesOk k) (h : s.Ok k f) (hp : s.vmars.parent x ≠ none)
    (hk : s.vmars.kind x = .mapping) (hl : s.vmars.locked x = false) :
    ∃ vs, s.execVirt k (.free (s.vmars.base x) (s.vmars.pageCount x)) = some (s.setVirt vs) ∧
      (s.setVirt vs).Ok k f ∧
      VirtState.Changed k.d s.virt vs (s.vmars.pageNumbers x) ∧
      (∀ n ∈ s.vmars.pageNumbers x, vs.flatMap k.d n = 0) ∧
      vs.phys.acct.reserved + {n | n ∈ s.vmars.pageNumbers x ∧ s.virt.flatMap k.d n = 0}.ncard =
        s.virt.phys.acct.reserved := by
  have hr := rangeOf_eq s.vmars x
  have hlen := h.pageCount_le hp
  have hsub := pageNumbers_subset hp hk
  have hboot : ∀ n ∈ s.vmars.pageNumbers x, n ∉ s.virt.bootPages := fun n hn =>
    h.notMem_boot hp hk hn
  have hrange : rangeOf (s.vmars.base x) (s.vmars.pageCount x) ⊆ s.mapped := hr ▸ hsub
  obtain ⟨hcount, hres⟩ := hpg.unpopulated_le (by omega) hrange
  obtain ⟨vs, e, hch, hzero, hacct⟩ := VirtState.free_run h.good h.handedOver
    (hpg.base_notMem h.handedOver) (by omega) (fun n hn => hpg.tables n (hsub (hr ▸ hn)))
    (fun n hn => hpg.pinned x hp hk hl n (hr ▸ hn)) (fun n hn => hboot n (hr ▸ hn)) hres
  obtain ⟨he, hok⟩ := h.execVirt_of e ⟨h.handedOver, fun n hn => hboot n (hr ▸ hn)⟩ (by simp)
  rw [hr] at hch hzero hcount
  refine ⟨vs, he, hok, hch, hzero, ?_⟩
  rw [hacct, ← hcount]
  exact Nat.sub_add_cancel hres

/-- Pages of a linked mapping get frames. -/
theorem PagesOk.populate (hpg : s.PagesOk k) (h : s.Ok k f) (hp : s.vmars.parent x ≠ none)
    (hk : s.vmars.kind x = .mapping) (hlen : pageCount ≤ 2 ^ 36)
    (hsub : rangeOf base pageCount ⊆ s.vmars.pageNumbers x) :
    ∃ vs, s.execVirt k (.populate base pageCount (s.vmars.locked x)) = some (s.setVirt vs) ∧
      (s.setVirt vs).Ok k f ∧ (s.setVirt vs).PagesOk k ∧
      VirtState.Changed k.d s.virt vs (rangeOf base pageCount) ∧
      (∀ n ∈ rangeOf base pageCount, Phys.Populated k.d (s.vmars.locked x)
        (virtIsUserAddress base) (s.virt.flatMap k.d n) (vs.flatMap k.d n)) ∧
      vs.phys.acct = Phys.populatedRange s.virt.phys.acct (s.virt.flatMap k.d) base pageCount := by
  have hsub' : rangeOf base pageCount ⊆ s.mapped := hsub.trans (pageNumbers_subset hp hk)
  obtain ⟨hcount, hres⟩ := hpg.unpopulated_le hlen hsub'
  obtain ⟨vs, e, hch, hpop, hacct⟩ := VirtState.populate_run h.good h.handedOver (s.vmars.locked x)
    hlen (fun n hn => hpg.tables n (hsub' hn))
    (fun n hn => hpg.present n (lt_of_mem_mapped (hsub' hn))) hres
  obtain ⟨he, hok⟩ := h.execVirt_of e h.handedOver (by simp)
  refine ⟨vs, he, hok, ?_, hch, hpop, hacct⟩
  have hbase : 4096 ∣ k.d.base := (by decide : (4096 : ℕ) ∣ 2 ^ 21).trans k.d.base_aligned
  have hnew : ∀ n ∈ rangeOf base pageCount, vs.flatMap k.d n &&& IA32_PG_P ≠ 0 := fun n hn =>
    (hpop n hn).elim (fun hc => hc.2 ▸ hc.1) fun hc => hc.2.1
  have hold : ∀ n < 2 ^ 36, n ∉ rangeOf base pageCount →
      vs.flatMap k.d n = s.virt.flatMap k.d n := hch.leaf
  refine ⟨fun n hn => hch.slot n (lt_of_mem_mapped hn) (hpg.tables n hn), fun n hn hne => ?_,
    fun y hpy hky hly n hn => ?_, fun n hn hne => ?_, ?_, hpg.direct, fun a ha => ?_,
    fromUsable_of_ranges hpg.usable h.handedOver hch.ranges⟩
  · change n ∈ vs.bootPages ∨ _
    rw [hch.bootPages]
    by_cases hw : n ∈ rangeOf base pageCount
    · exact Or.inr (hsub' hw)
    · exact hpg.covered n hn (hold n hn hw ▸ hne)
  · change vs.flatMap k.d n &&& IA32_PG_G = 0
    have hpin := hpg.pinned y hpy hky hly n hn
    by_cases hw : n ∈ rangeOf base pageCount
    · change s.vmars.kind y = .mapping at hky
      obtain rfl := h.eq_of_page hpy hp (by simp [hky]) (by simp [hk]) hn (hsub hw)
      rcases hpop n hw with ⟨-, he⟩ | ⟨-, -, a, -, ha, -, he⟩
      · rw [he]
        exact hpin
      · change s.vmars.locked y = false at hly
        rw [he, hly]
        exact populatedEntry_and_pageG (Nat.dvd_sub ha hbase)
    · rw [hold n (lt_of_mem_pageNumbers hn) hw]
      exact hpin
  · change vs.flatMap k.d n &&& IA32_PG_P ≠ 0
    by_cases hw : n ∈ rangeOf base pageCount
    · exact hnew n hw
    · change vs.flatMap k.d n ≠ 0 at hne
      rw [hold n hn hw] at hne ⊢
      exact hpg.present n hn hne
  · have hsplit : s.empty k = (s.setVirt vs).empty k ∪
        {n | n ∈ rangeOf base pageCount ∧ s.virt.flatMap k.d n = 0} := by
      ext n
      change n ∈ s.mapped ∧ _ ↔ (n ∈ s.mapped ∧ vs.flatMap k.d n = 0) ∨ _
      by_cases hw : n ∈ rangeOf base pageCount
      · have hne : vs.flatMap k.d n ≠ 0 := fun h0 => hnew n hw (by rw [h0, Nat.zero_and])
        simp only [hsub' hw, hne, and_false, false_or, Set.mem_ofPred_eq, hw]
      · by_cases hm : n ∈ s.mapped
        · simp only [hold n (lt_of_mem_mapped hm) hw, Set.mem_ofPred_eq, hw, false_and, or_false]
        · simp only [hm, hw, Set.mem_ofPred_eq, false_and, or_false]
    have hdisj : Disjoint ((s.setVirt vs).empty k)
        {n | n ∈ rangeOf base pageCount ∧ s.virt.flatMap k.d n = 0} := by
      rw [Set.disjoint_left]
      rintro n ⟨-, h0⟩ ⟨hw, -⟩
      exact hnew n hw (by rw [show vs.flatMap k.d n = 0 from h0, Nat.zero_and])
    have hsum := hpg.reserved
    rw [hsplit, Set.ncard_union_eq hdisj (finite_empty _ k)
      (finite_pages fun n hn => lt_of_mem_mapped (hsub' hn.1))] at hsum
    change vs.phys.acct.reserved = _
    have hr : vs.phys.acct.reserved = s.virt.phys.acct.reserved -
      unpopulated (s.virt.flatMap k.d) base pageCount := by rw [hacct]; rfl
    omega
  · change a ∈ vs.boot.clients.added at ha
    rw [Clients.added, hch.ranges] at ha
    exact hch.slot _ (pageNumber_lt a) (hpg.added a ha)

/-- The pages of a linked mapping that is locked are made global. -/
theorem PagesOk.makeGlobal (hpg : s.PagesOk k) (h : s.Ok k f) (hp : s.vmars.parent x ≠ none)
    (hk : s.vmars.kind x = .mapping) (hl : s.vmars.locked x = true) :
    ∃ vs, s.execVirt k (.makeGlobal (s.vmars.base x) (s.vmars.pageCount x)) =
        some (s.setVirt vs) ∧
      (s.setVirt vs).Ok k f ∧ (s.setVirt vs).PagesOk k := by
  have hr := rangeOf_eq s.vmars x
  have hsub := pageNumbers_subset hp hk
  obtain ⟨vs, e, hch, hglobal, hacct⟩ := VirtState.makeGlobal_run h.good h.handedOver
    (show ∀ n ∈ rangeOf (s.vmars.base x) (s.vmars.pageCount x), _ from
      fun n hn => hpg.tables n (hsub (hr ▸ hn)))
  obtain ⟨he, hok⟩ := h.execVirt_of e h.handedOver (by simp)
  rw [hr] at hch hglobal
  have hold : ∀ n < 2 ^ 36, n ∉ s.vmars.pageNumbers x →
      vs.flatMap k.d n = s.virt.flatMap k.d n := hch.leaf
  have hzero : ∀ n < 2 ^ 36, vs.flatMap k.d n = 0 ↔ s.virt.flatMap k.d n = 0 := by
    intro n hn
    by_cases hw : n ∈ s.vmars.pageNumbers x
    · rw [hglobal n hw, Phys.withGlobal_eq_zero]
    · rw [hold n hn hw]
  refine ⟨vs, he, hok, fun n hn => hch.slot n (lt_of_mem_mapped hn) (hpg.tables n hn),
    fun n hn hne => ?_, fun y hpy hky hly n hn => ?_, fun n hn hne => ?_, ?_, hpg.direct,
    fun a ha => ?_, fromUsable_of_ranges hpg.usable h.handedOver hch.ranges⟩
  · change n ∈ vs.bootPages ∨ _
    rw [hch.bootPages]
    exact hpg.covered n hn fun h0 => hne ((hzero n hn).mpr h0)
  · change vs.flatMap k.d n &&& IA32_PG_G = 0
    have hw : n ∉ s.vmars.pageNumbers x := by
      intro hw
      change s.vmars.kind y = .mapping at hky
      obtain rfl := h.eq_of_page hpy hp (by simp [hky]) (by simp [hk]) hn hw
      exact absurd (hl.symm.trans hly) (by simp)
    rw [hold n (lt_of_mem_pageNumbers hn) hw]
    exact hpg.pinned y hpy hky hly n hn
  · change vs.flatMap k.d n &&& IA32_PG_P ≠ 0
    have hpres := hpg.present n hn fun h0 => hne ((hzero n hn).mpr h0)
    by_cases hw : n ∈ s.vmars.pageNumbers x
    · rw [hglobal n hw, Phys.withGlobal, if_pos hpres]
      exact VirtState.present_or (Or.inl hpres)
    · rw [hold n hn hw]
      exact hpres
  · change vs.phys.acct.reserved = _
    rw [hacct, hpg.reserved]
    congr 1
    ext n
    refine and_congr_right fun hn => ?_
    exact (hzero n (lt_of_mem_mapped hn)).symm
  · change a ∈ vs.boot.clients.added at ha
    rw [Clients.added, hch.ranges] at ha
    exact hch.slot _ (pageNumber_lt a) (hpg.added a ha)

end Vmm

end Tomato
