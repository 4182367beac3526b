import Tomato.Thread.Create

/-!
# The threads over whole runs

The vmars, the pages and the slabs of the threads are right in every reachable state, where a
handle of a thread for its stack counts like one of a caller.
-/

namespace Tomato

open Blocks Transition

open VirtState (StillHeld)

theorem SlabRun.Good.setVirt {d : DirectMap} {entries : Memmap} {a : MemAlloc} {m : MemAllocMeta}
    {r : SlabRun} {vs : VirtState} (h : r.Good d entries a m) (hg : vs.Good d entries)
    (hl : vs.handedOver = true)
    (hh : ∀ slab ∈ r.slabs.created, block slab 6 ∈ vs.boot.clients.live) :
    (SlabRun.mk { r.slabs with virt := vs } r.live).Good d entries a m := by
  obtain ⟨-, lists, hi, hb⟩ := h
  exact ⟨⟨hg, hl, hh⟩, lists,
    ⟨hi.rings, hi.nodup, hi.perm, hi.page, hi.owner, hi.free, hi.inUse, hi.live_nodup,
      hi.live_mem⟩, ⟨hb.partialList, hb.fullList, hb.emptyList⟩⟩

/-- There is no page for a slab when none is available. -/
theorem VirtState.alloc_eq_none {d : DirectMap} {entries : Memmap} {vs : VirtState}
    (h : vs.Good d entries) (hl : vs.handedOver = true) (hav : vs.phys.acct.available = 0) :
    vs.physAlloc d PAGE_SIZE = some (none, vs) := by
  obtain ⟨-, fl, live, hok⟩ := h.late hl
  rcases hok.ok.physAlloc PAGE_SIZE with e | ⟨level, p, s, fl', pages, hlev, -, ha, -, hle, -⟩
  · simp only [physAlloc, phys, e, Option.map_some, Clients.handOut]
  · obtain rfl : 6 = level := Option.some.inj (Phys.getLevelBySize_pageSize.symm.trans hlev)
    have hpages : pages = 1 := ha.pages le_rfl
    have hav : vs.boot.clients.phys.acct.available = 0 := hav
    omega

namespace VmmRun

variable {k : Kernel} {r r' : VmmRun} {fuel : ℕ} {c : VmmCall}

/-- A page that a client does not free is held after the call. -/
theorem stillHeld_of_exec {b : ℕ} (hb : block b 6 ∈ r.vmm.virt.boot.clients.live)
    (hc : ∀ size, c ≠ .client (.free b size) ∧ c ≠ .client (.freeReserved b size))
    (he : r.exec k fuel c = some r') : block b 6 ∈ r'.vmm.virt.boot.clients.live := by
  cases c with
  | link parent child | allocateStatic parent child offset pageCount =>
    obtain ⟨v, -, rfl⟩ := Option.map_eq_some_iff.mp he
    exact hb
  | allocate parent offset pageCount =>
    obtain ⟨⟨res, s⟩, e, rfl⟩ := Option.map_eq_some_iff.mp he
    exact Vmm.vmarAllocate_stillHeld e b hb
  | map parent offset pageCount =>
    obtain ⟨⟨res, s⟩, e, rfl⟩ := Option.map_eq_some_iff.mp he
    exact Vmm.vmarMap_stillHeld e b hb
  | populate vmar =>
    obtain ⟨⟨res, s⟩, e, rfl⟩ := Option.map_eq_some_iff.mp he
    exact Vmm.vmarPopulate_stillHeld e b hb
  | lock vmar =>
    obtain ⟨s, e, rfl⟩ := Option.map_eq_some_iff.mp he
    rw [Vmm.vmarLock] at e
    split at e
    · simp at e
    · exact Vmm.vmarLockInternal_stillHeld e b hb
  | unmap vmar =>
    obtain ⟨s, e, rfl⟩ := Option.map_eq_some_iff.mp he
    exact Vmm.vmarUnmap_stillHeld e b hb
  | findMapping root address =>
    obtain ⟨⟨o, v⟩, e, he⟩ := Option.map_eq_some_iff.mp he
    cases o <;> exact he ▸ hb
  | get vmar => exact Option.some.inj he ▸ hb
  | put vmar =>
    obtain ⟨s, e, rfl⟩ := Option.map_eq_some_iff.mp he
    change block b 6 ∈ s.virt.boot.clients.live
    rwa [Vmm.objectPut_virt e]
  | pageFault address errorCode =>
    simp only [exec] at he
    split at he
    · rename_i e
      exact Option.some.inj he ▸ Vmm.virtPageFaultHandler_stillHeld e b hb
    · simp at he
  | newSlab =>
    obtain ⟨vs, e, rfl⟩ := Option.map_eq_some_iff.mp he
    exact (newSlab_slabPage e).stillHeld b hb
  | client c =>
    obtain ⟨s, e, rfl⟩ := Option.map_eq_some_iff.mp he
    obtain ⟨vs, e1, rfl⟩ := Option.map_eq_some_iff.mp e
    obtain ⟨t, e2, rfl⟩ := Option.map_eq_some_iff.mp e1
    exact Clients.live_of_exec e2 (fun size =>
      ⟨fun h => (hc size).1 (h ▸ rfl), fun h => (hc size).2 (h ▸ rfl)⟩) hb

/-- More handles do not matter to a call. -/
theorem exec_handles (g : ℕ → ℕ) (hv : r.Valid k c) (he : r.exec k fuel c = some r') :
    (VmmRun.mk r.vmm (r.handles + g)).Valid k c ∧
      (VmmRun.mk r.vmm (r.handles + g)).exec k fuel c =
        some ⟨r'.vmm, r'.handles + g⟩ := by
  have hhold : ∀ x, (VmmRun.mk r.vmm (r.handles + g)).hold x = r.hold x + g := by
    intro x
    funext y
    by_cases hy : y = x
    · subst hy
      simp [hold, Nat.add_right_comm]
    · simp [hold, Function.update_of_ne hy]
  have hnew : ∀ res, (VmmRun.mk r.vmm (r.handles + g)).holdNew res = r.holdNew res + g := by
    rintro (e | x)
    · rfl
    · exact hhold x
  cases c with
  | link parent child | allocateStatic parent child offset pageCount =>
    obtain ⟨v, e, rfl⟩ := Option.map_eq_some_iff.mp he
    exact ⟨hv, by rw [exec, e]; rfl⟩
  | allocate parent offset pageCount | map parent offset pageCount =>
    obtain ⟨⟨res, s⟩, e, rfl⟩ := Option.map_eq_some_iff.mp he
    refine ⟨hv, ?_⟩
    rw [exec, e, Option.map_some]
    simp only [hnew]
  | populate vmar =>
    obtain ⟨⟨res, s⟩, e, rfl⟩ := Option.map_eq_some_iff.mp he
    exact ⟨hv, by rw [exec, e]; rfl⟩
  | lock vmar | unmap vmar =>
    obtain ⟨s, e, rfl⟩ := Option.map_eq_some_iff.mp he
    exact ⟨hv, by rw [exec, e]; rfl⟩
  | findMapping root address =>
    obtain ⟨⟨o, v⟩, e, he⟩ := Option.map_eq_some_iff.mp he
    refine ⟨hv, ?_⟩
    rw [exec, e, Option.map_some]
    cases o with
    | none => exact he ▸ rfl
    | some x => exact he ▸ congrArg some (by simp only [hhold])
  | get vmar =>
    refine ⟨Nat.add_pos_left hv _, ?_⟩
    rw [exec, hhold, ← Option.some.inj he]
  | put vmar =>
    obtain ⟨s, e, rfl⟩ := Option.map_eq_some_iff.mp he
    refine ⟨Nat.add_pos_left hv _, ?_⟩
    have hpos : 0 < r.handles vmar := hv
    rw [exec, e, Option.map_some]
    congr 2
    funext y
    by_cases hy : y = vmar
    · subst hy
      simp only [Function.update_self, Pi.add_apply]
      omega
    · simp [Function.update_of_ne hy]
  | pageFault address errorCode =>
    refine ⟨hv, ?_⟩
    simp only [exec] at he ⊢
    split at he
    · rw [← Option.some.inj he]
    · simp at he
  | newSlab =>
    obtain ⟨vs, e, rfl⟩ := Option.map_eq_some_iff.mp he
    exact ⟨hv, by rw [exec, e]; rfl⟩
  | client c =>
    obtain ⟨s, e, rfl⟩ := Option.map_eq_some_iff.mp he
    exact ⟨hv, by rw [exec, e]; rfl⟩

end VmmRun

namespace Vmm

variable {k : Kernel} {s s' : Vmm} {x fuel size : ℕ} {user : Bool}

theorem unmapAndPut_stillHeld (he : s.unmapAndPut k fuel x = some s') :
    StillHeld s.virt s'.virt := by
  obtain ⟨s1, e1, he⟩ := Option.bind_eq_some_iff.mp he
  exact objectPut_virt he ▸ vmarUnmap_stillHeld e1

theorem populateStack_stillHeld {res : Except TomatoErr Unit}
    (he : s.populateStack k x user = some (res, s')) : StillHeld s.virt s'.virt := by
  rw [populateStack] at he
  split at he
  · obtain ⟨-, rfl⟩ := Prod.mk.inj (Option.some.inj he)
    exact .refl _
  · exact vmarPopulate_stillHeld he

theorem stackAlloc_stillHeld {res : Except TomatoErr Unit} {a a' : StackAllocation}
    (he : s.stackAlloc k fuel a size user = some (res, a', s')) : StillHeld s.virt s'.virt := by
  have hundo : ∀ {s1 : Vmm} {region : ℕ} {e : TomatoErr},
      (s1.unmapAndPut k fuel region).map (fun s => (Except.error e, a, s)) = some (res, a', s') →
      StillHeld s1.virt s'.virt := by
    intro s1 region e he
    obtain ⟨s2, e2, he⟩ := Option.map_eq_some_iff.mp he
    obtain ⟨-, he⟩ := Prod.mk.inj he
    obtain ⟨-, rfl⟩ := Prod.mk.inj he
    exact unmapAndPut_stillHeld e2
  simp only [stackAlloc, Option.bind_eq_bind] at he
  obtain ⟨⟨region, s1⟩, e1, he⟩ := Option.bind_eq_some_iff.mp he
  have h1 := vmarAllocate_stillHeld e1
  cases region with
  | error e =>
    obtain ⟨-, he⟩ := Prod.mk.inj (Option.some.inj he)
    obtain ⟨-, rfl⟩ := Prod.mk.inj he
    exact h1
  | ok region =>
    obtain ⟨⟨stack, s2⟩, e2, he⟩ := Option.bind_eq_some_iff.mp he
    have h2 := h1.trans (vmarMap_stillHeld e2)
    cases stack with
    | error e => exact h2.trans (hundo he)
    | ok stack =>
      obtain ⟨⟨res', s3⟩, e3, he⟩ := Option.bind_eq_some_iff.mp he
      obtain ⟨s4, e4, he⟩ := Option.bind_eq_some_iff.mp he
      have h4 : StillHeld s.virt s4.virt :=
        objectPut_virt e4 ▸ h2.trans (populateStack_stillHeld e3)
      cases res' with
      | error e => exact h4.trans (hundo he)
      | ok u =>
        obtain ⟨-, he⟩ := Prod.mk.inj (Option.some.inj he)
        obtain ⟨-, rfl⟩ := Prod.mk.inj he
        exact h4

end Vmm

namespace ThreadRun

variable {k : ThreadKernel} {t t' : ThreadRun} {f : ℕ → ℕ} {s : Vmm} {x thread : ℕ}

/-- The handles for stacks: those of the threads, and those that a thread had when it was freed. -/
def stackHandles (t : ThreadRun) (x : ℕ) : ℕ := t.threadHandles x + t.freed.count x

/-- All the handles, with those of the callers. -/
def handles (t : ThreadRun) : ℕ → ℕ := t.own + t.stackHandles

/-- The vmars and the slabs, with the number of the handles. -/
structure Sound (k : ThreadKernel) (t : ThreadRun) (f : ℕ → ℕ) : Prop where
  vmm : t.vmm.Ok k.toKernel f
  pages : t.vmm.PagesOk k.toKernel
  slabs : t.threadSlabs.Good k.d k.entries k.threadAlloc k.threadType.allocMeta

/-- What holds in every reachable state. -/
def Good (k : ThreadKernel) (t : ThreadRun) : Prop := t.Sound k t.handles

/-- The virtual memory changes. -/
theorem Sound.setVmm {g : ℕ → ℕ} (h : t.Sound k f) (hok : s.Ok k.toKernel g)
    (hpg : s.PagesOk k.toKernel) (hh : StillHeld t.vmm.virt s.virt) :
    Sound k { t with vmm := s } g :=
  ⟨hok, hpg, h.slabs.setVirt hok.good hok.handedOver fun slab hs =>
    hh slab (h.slabs.1.held slab hs)⟩

theorem Sound.setFields (h : t.Sound k f) (g : ThreadFields) :
    Sound k { t with fields := g } f :=
  ⟨h.vmm, h.pages, h.slabs⟩

/-- The slabs of the threads take a page, or none. -/
theorem Sound.setThreadSlabs {r : SlabRun} (h : t.Sound k f)
    (hg : r.Good k.d k.entries k.threadAlloc k.threadType.allocMeta)
    (hp : SlabPage k.d k.entries t.vmm.virt r.slabs.virt) : (t.setThreadSlabs r).Sound k f := by
  refine ⟨h.vmm.congr_run (VmmRun.slabs_good h.vmm.slabs hp) rfl hp.bootPages,
    (h.pages.slabPage h.vmm (show (t.vmm.setVirt r.slabs.virt).vmars = t.vmm.vmars from rfl) hp).1,
    hg⟩

/-- There is a slab for a thread, or a page for one. -/
def CanAlloc (k : ThreadKernel) (t : ThreadRun) : Prop :=
  t.slabs.links.listEmpty k.threadAlloc.partialList = false ∨
    t.slabs.links.listEmpty k.threadAlloc.emptyList = false ∨ 1 ≤ t.vmm.virt.phys.acct.available

/-- `ALLOC(thread_t)` returns a new object, or `nullptr`. -/
theorem Sound.allocThread (h : t.Sound k f) :
    (¬ t.CanAlloc k ∧ ∃ t', t.allocThread k = some (none, t')) ∨
      t.CanAlloc k ∧ ∃ x r, t.allocThread k = some (some x, t.setThreadSlabs r) ∧
        (t.setThreadSlabs r).Sound k f ∧ r.live = x :: t.live ∧ x ∉ t.live ∧
        StillHeld t.vmm.virt r.slabs.virt ∧
        r.slabs.virt.phys.acct.reserved = t.vmm.virt.phys.acct.reserved := by
  obtain ⟨hp, lists, hi, hb⟩ := h.slabs
  have hpart : t.slabs.links.listEmpty k.threadAlloc.partialList = true ↔ _ :=
    hi.rings.listEmpty_iff (partial_mem_listHeads k.threadAlloc t.slabs.created)
  have hempt : t.slabs.links.listEmpty k.threadAlloc.emptyList = true ↔ _ :=
    hi.rings.listEmpty_iff (empty_mem_listHeads k.threadAlloc t.slabs.created)
  by_cases hc : t.CanAlloc k
  · refine Or.inr ⟨hc, ?_⟩
    rcases hi.memAlloc k.threadAlloc_ok k.threadDefine.ok hb hp with
      ⟨-, h1, h2, e⟩ | ⟨-, x, vs, e1, e2⟩ | ⟨x, st, lists', e, hx, -⟩
    · -- the pages that are available have not run out
      rw [← hpart] at h1
      rw [← hempt] at h2
      rcases hc with hc | hc | hc
      · simp [h1] at hc
      · simp [h2] at hc
      · obtain ⟨x, vs, e'⟩ := VirtState.alloc_isSome h.vmm.good h.vmm.handedOver hc
        rw [show t.threadSlabs.slabs.virt = t.vmm.virt from rfl, e'] at e
        simp at e
    · obtain ⟨vs2, e3⟩ := VirtState.makeGlobal_slab h.vmm.good h.vmm.handedOver h.pages.added e1
      simp [e2] at e3
    · have hpage := Slabs.memAlloc_virt e
      obtain ⟨hg, -⟩ := h.slabs.memAlloc k.threadAlloc_ok k.threadDefine.ok e
      obtain ⟨-, ⟨c, -, hacct⟩, -⟩ := h.pages.quiet h.vmm hpage
      refine ⟨x, ⟨st, x :: t.live⟩, ?_, h.setThreadSlabs hg hpage, rfl, hx, hpage.stillHeld, ?_⟩
      · rw [ThreadRun.allocThread, e]
        rfl
      · rw [hacct]
        rfl
  · refine Or.inl ⟨hc, ?_⟩
    simp only [CanAlloc, not_or, Bool.not_eq_false, Nat.not_le, Nat.lt_one_iff] at hc
    obtain ⟨h1, h2, hav⟩ := hc
    have e := VirtState.alloc_eq_none h.vmm.good h.vmm.handedOver hav
    simp only [ThreadRun.allocThread, Slabs.memAlloc, Slabs.chooseSlab, threadSlabs, h1, h2,
      Slabs.slabCreate, e, Bool.not_true, Bool.false_eq_true, if_false, Option.bind_eq_bind,
      Option.bind_some, Option.map_some]
    exact ⟨_, rfl⟩

/-- A thread is freed. -/
theorem Sound.freeThread (h : t.Sound k f) (hx : thread ∈ t.live) :
    ∃ r, t.freeThread k thread = some { t.setThreadSlabs r with fields := t.fields.wipe thread } ∧
      (t.setThreadSlabs r).Sound k f ∧ r.live = t.live.erase thread ∧
      r.slabs.virt = t.vmm.virt := by
  obtain ⟨r, e, hg, hl, hv⟩ := h.slabs.memFree k.threadAlloc_ok k.threadDefine.ok hx
  refine ⟨r, ?_, h.setThreadSlabs hg (Or.inl hv), hl, hv⟩
  rw [ThreadRun.freeThread, if_pos hx, e]
  rfl

/-- A thread that is freed does not have the handle for its stack any more. -/
theorem threadHandles_wipe (hn : t.live.Nodup) (hx : thread ∈ t.live) (y : ℕ) :
    (t.live.erase thread).countP (fun z => (t.fields.wipe thread).kernelStack z = y) +
      [t.fields.kernelStack thread].count y = t.threadHandles y := by
  have hsame : (t.live.erase thread).countP (fun z => (t.fields.wipe thread).kernelStack z = y) =
      (t.live.erase thread).countP (fun z => t.fields.kernelStack z = y) := by
    refine List.countP_congr fun z hz => ?_
    simp [ThreadFields.wipe, Function.update_of_ne (hn.mem_erase_iff.mp hz).1]
  rw [hsame, threadHandles, (List.perm_cons_erase hx).countP_eq, List.countP_cons,
    List.count_singleton]
  by_cases hy : t.fields.kernelStack thread = y <;> simp [hy]

theorem Sound.live_nodup (h : t.Sound k f) : t.live.Nodup := by
  obtain ⟨-, lists, hi, -⟩ := h.slabs
  exact hi.live_nodup

end ThreadRun

end Tomato
