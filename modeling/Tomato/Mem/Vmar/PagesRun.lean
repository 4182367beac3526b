import Tomato.Boot.Returns

/-!
# The pages in every reachable state

The reserved pages are those of the linked mappings that are not present, and each of them can
be had when it is needed. So populating and the page faults never fail an assertion.
-/

namespace Tomato

open RbTree Ranges Forest Transition Blocks Vmars

/-- The buddy lists have so many free pages. -/
def VirtState.FreePages (d : DirectMap) (vs : VirtState) (n : ℕ) : Prop :=
  ∃ fl : FreeLists, (∀ l < 16, Chain vs.phys.mem (d.head l) (fl l)) ∧ freePages fl = n

namespace Vmm

section

variable (k : Kernel) (s : Vmm)

/-- A mapping that is in the tree. -/
def LinkedMapping (x : ℕ) : Prop := s.vmars.parent x ≠ none ∧ s.vmars.kind x = .mapping

/-- How many pages of a vmar are not present. -/
def absentPages (x : ℕ) : ℕ :=
  Nat.count (fun i => s.virt.flatMap k.d (pageNumber (pageAddr (s.vmars.base x) i)) &&& IA32_PG_P = 0)
    (s.vmars.pageCount x)

/-- There is a page for every page of a mapping that is not present. -/
structure NoOvercommit : Prop where
  tables : ∀ x, s.LinkedMapping x → ∀ n ∈ s.vmars.pageNumbers x, s.virt.HasSlot k.d n
  backed : ∀ x, s.LinkedMapping x → ∀ n ∈ s.vmars.pageNumbers x,
    s.virt.flatMap k.d n &&& IA32_PG_P = 0 → 1 ≤ s.virt.phys.acct.reserved ∧
      ∃ l < 16, PHYS_BUDDY_PAGE_LEVEL ≤ l ∧ hlistEmpty s.virt.phys.mem (k.d.head l) = false
  populates : ∀ x, s.Known k x → ∃ res s', s.vmarPopulate k x = some (res, s')
  faults : ∀ address errorCode, ∃ n, ∀ fuel, n < fuel →
    ∃ res s', s.virtPageFaultHandler k fuel address errorCode = some (res, s')

end

variable {k : Kernel} {s s' : Vmm} {f : ℕ → ℕ} {x n address errorCode : ℕ}

namespace PagesOk

/-- An entry that is not present is zero. -/
theorem absent_iff (h : s.PagesOk k) (hn : n < 2 ^ 36) :
    s.virt.flatMap k.d n &&& IA32_PG_P = 0 ↔ s.virt.flatMap k.d n = 0 := by
  constructor
  · intro hp
    by_contra hne
    exact h.present n hn hne hp
  · intro he
    rw [he, Nat.zero_and]

theorem absentPages_eq (h : s.PagesOk k) (hok : s.Ok k f) (hx : s.LinkedMapping x) :
    s.absentPages k x = {n | n ∈ s.vmars.pageNumbers x ∧ s.virt.flatMap k.d n = 0}.ncard := by
  have hlen := hok.pageCount_le hx.1
  have hcount : countPages (s.virt.flatMap k.d) (· = 0) (s.vmars.base x) (s.vmars.pageCount x) = _ :=
    countPages_eq_ncard (show s.vmars.pageCount x ≤ 2 ^ 36 by omega)
  rw [rangeOf_eq] at hcount
  rw [← hcount, absentPages, countPages]
  simp only [h.absent_iff (pageNumber_lt _)]

/-- The pages that are not present are counted for one mapping after the other. -/
theorem sum_absentPages (h : s.PagesOk k) (hok : s.Ok k f) {xs : List ℕ} (hnd : xs.Nodup)
    (hxs : ∀ x ∈ xs, s.LinkedMapping x) : (xs.map (s.absentPages k)).sum =
      {n | (∃ x ∈ xs, n ∈ s.vmars.pageNumbers x) ∧ s.virt.flatMap k.d n = 0}.ncard := by
  induction xs with
  | nil => simp
  | cons x xs ih =>
    obtain ⟨hx, hnd⟩ := List.nodup_cons.mp hnd
    have hlx := hxs x List.mem_cons_self
    have hset : {n | (∃ y ∈ x :: xs, n ∈ s.vmars.pageNumbers y) ∧ s.virt.flatMap k.d n = 0} =
        {n | n ∈ s.vmars.pageNumbers x ∧ s.virt.flatMap k.d n = 0} ∪
          {n | (∃ y ∈ xs, n ∈ s.vmars.pageNumbers y) ∧ s.virt.flatMap k.d n = 0} := by
      ext n
      simp only [List.exists_mem_cons_iff, Set.mem_union, Set.mem_ofPred_eq, or_and_right]
    have hdisj : Disjoint {n | n ∈ s.vmars.pageNumbers x ∧ s.virt.flatMap k.d n = 0}
        {n | (∃ y ∈ xs, n ∈ s.vmars.pageNumbers y) ∧ s.virt.flatMap k.d n = 0} := by
      rw [Set.disjoint_left]
      rintro n ⟨hnx, -⟩ ⟨⟨y, hy, hny⟩, -⟩
      have hly := hxs y (List.mem_cons_of_mem x hy)
      exact hx (hok.eq_of_page hlx.1 hly.1 (by simp [hlx.2]) (by simp [hly.2]) hnx hny ▸ hy)
    have hfin : {n | n ∈ s.vmars.pageNumbers x ∧ s.virt.flatMap k.d n = 0}.Finite :=
      finite_pages fun n hn => lt_of_mem_pageNumbers hn.1
    have hfin' : {n | (∃ y ∈ xs, n ∈ s.vmars.pageNumbers y) ∧
        s.virt.flatMap k.d n = 0}.Finite := finite_pages fun n hn => by
      obtain ⟨⟨y, -, hny⟩, -⟩ := hn
      exact lt_of_mem_pageNumbers hny
    rw [List.map_cons, List.sum_cons, ih hnd fun y hy => hxs y (List.mem_cons_of_mem x hy),
      h.absentPages_eq hok hlx, hset, Set.ncard_union_eq hdisj hfin hfin']

theorem reserved_eq (h : s.PagesOk k) (hok : s.Ok k f) :
    ∃ xs : List ℕ, xs.Nodup ∧ (∀ x, x ∈ xs ↔ s.LinkedMapping x) ∧
      s.virt.phys.acct.reserved = (xs.map (s.absentPages k)).sum := by
  classical
  have hmem : ∀ x, x ∈ s.run.live.filter (fun x => decide (s.LinkedMapping x)) ↔
      s.LinkedMapping x := fun x => by
    rw [List.mem_filter, decide_eq_true_eq, and_iff_right_iff_imp]
    exact fun hx => hok.mem_live hx.1 (by simp [hx.2])
  have hnd := hok.live_nodup.filter (fun x => decide (s.LinkedMapping x))
  refine ⟨_, hnd, hmem, ?_⟩
  have hset : s.empty k = {n | (∃ x ∈ s.run.live.filter (fun x => decide (s.LinkedMapping x)),
      n ∈ s.vmars.pageNumbers x) ∧ s.virt.flatMap k.d n = 0} := by
    ext n
    refine and_congr_left fun _ => exists_congr fun x => ?_
    rw [hmem x, LinkedMapping, and_assoc]
  rw [h.sum_absentPages hok hnd fun x hx => (hmem x).mp hx, h.reserved, hset]

/-- There is a free page for a page that is reserved. -/
theorem exists_free (h : s.PagesOk k) (hok : s.Ok k f) (hres : 1 ≤ s.virt.phys.acct.reserved) :
    ∃ l < 16, PHYS_BUDDY_PAGE_LEVEL ≤ l ∧ hlistEmpty s.virt.phys.mem (k.d.head l) = false := by
  obtain ⟨-, fl, live, hv⟩ := hok.good.late hok.handedOver
  by_contra hc
  push Not at hc
  have hzero := Phys.freePages_eq_zero fun l h6 h16 => by
    have hempty := hc l h16 (by rw [PHYS_BUDDY_PAGE_LEVEL_eq]; exact h6)
    exact (hv.ok.inv.chain l h16).hlistEmpty_iff.mp (Bool.eq_true_of_not_eq_false hempty)
  have := hv.ok.pages
  change 1 ≤ s.virt.boot.clients.phys.acct.reserved at hres
  omega

theorem noOvercommit (h : s.PagesOk k) (hok : s.Ok k f) : s.NoOvercommit k where
  tables := fun x hx n hn => h.tables n ⟨x, hx.1, hx.2, hn⟩
  backed := fun x hx n hn hp => by
    have hres : 1 ≤ s.virt.phys.acct.reserved := by
      rw [h.reserved, Nat.one_le_iff_ne_zero, ← Nat.pos_iff_ne_zero, Set.ncard_pos (finite_empty s k)]
      exact ⟨n, ⟨x, hx.1, hx.2, hn⟩, (h.absent_iff (lt_of_mem_pageNumbers hn)).mp hp⟩
    exact ⟨hres, h.exists_free hok hres⟩
  populates := fun x hx => by
    obtain ⟨res, s', e, -⟩ := hok.vmarPopulate h hx
    exact ⟨res, s', e⟩
  faults := fun address errorCode => by
    obtain ⟨n, res, s', e, -⟩ := hok.virtPageFaultHandler h address errorCode
    exact ⟨n, fun fuel hfuel => ⟨res, s', e fuel hfuel⟩⟩

end PagesOk

end Vmm

variable {k : Kernel} {r : VmmRun}

/-- The reserved pages are those of the linked mappings that are not present. -/
theorem reserved_of_reachable (h : Reachable (VmmRun.Initial k) (VmmRun.Step k) r) :
    ∃ xs : List ℕ, xs.Nodup ∧ (∀ x, x ∈ xs ↔ r.vmm.LinkedMapping x) ∧
      r.vmm.virt.phys.acct.reserved = (xs.map (r.vmm.absentPages k)).sum := by
  obtain ⟨hok, hpg⟩ := VmmRun.good_of_reachable h
  exact hpg.reserved_eq hok

theorem reserved_smallKernel : ∃ r, VmmRun.Initial smallKernel r ∧
    ∃ xs : List ℕ, xs.Nodup ∧ (∀ x, x ∈ xs ↔ r.vmm.LinkedMapping x) ∧
      r.vmm.virt.phys.acct.reserved = (xs.map (r.vmm.absentPages smallKernel)).sum := by
  obtain ⟨r, h⟩ := exists_initial
  exact ⟨r, h, reserved_of_reachable (.start h)⟩

/-- No page of a mapping is ever missing. -/
theorem noOvercommit_of_reachable (h : Reachable (VmmRun.Initial k) (VmmRun.Step k) r) :
    r.vmm.NoOvercommit k := by
  obtain ⟨hok, hpg⟩ := VmmRun.good_of_reachable h
  exact hpg.noOvercommit hok

theorem noOvercommit_smallKernel :
    ∃ r, VmmRun.Initial smallKernel r ∧ r.vmm.NoOvercommit smallKernel := by
  obtain ⟨r, h⟩ := exists_initial
  exact ⟨r, h, noOvercommit_of_reachable (.start h)⟩

end Tomato
