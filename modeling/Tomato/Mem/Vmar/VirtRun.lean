import Tomato.Mem.Virt.UserBits
import Tomato.Mem.Vmar.StillHeld

/-!
# The runs of the page table below the vmars

A call on vmars acts on the page table by calls of `mem/virt.c` and of the allocators, each of
which may be made where it is made. So what a run of calls on vmars does to the page table is a
run of the page table, and what is known of these runs holds for the vmars.
-/

namespace Tomato

open RbTree Ranges Forest Transition Blocks Vmars

namespace VirtState

variable {d : DirectMap} {entries : Memmap} {vs vs' vs'' : VirtState}

/-- A call that may be made, and whose pages are in one half of the address space. -/
def HalfStep (d : DirectMap) (entries : Memmap) (vs vs' : VirtState) : Prop :=
  ∃ c : VirtCall, c.OneHalf ∧ vs.Valid d c ∧ vs.exec d entries c = some vs'

/-- A run of such calls. -/
def Run (d : DirectMap) (entries : Memmap) : VirtState → VirtState → Prop :=
  Relation.ReflTransGen (HalfStep d entries)

namespace Run

theorem single {c : VirtCall} (hc : c.OneHalf) (hv : vs.Valid d c)
    (he : vs.exec d entries c = some vs') : Run d entries vs vs' :=
  Relation.ReflTransGen.single ⟨c, hc, hv, he⟩

theorem trans (h : Run d entries vs vs') (h' : Run d entries vs' vs'') : Run d entries vs vs'' :=
  Relation.ReflTransGen.trans h h'

theorem handedOver (h : Run d entries vs vs') (hl : vs.handedOver = true) :
    vs'.handedOver = true := by
  induction h with
  | refl => exact hl
  | tail _ hst ih =>
    obtain ⟨c, -, -, he⟩ := hst
    exact handedOver_of_exec ih he

theorem good (h : Run d entries vs vs') (hg : vs.Good d entries) : vs'.Good d entries := by
  induction h with
  | refl => exact hg
  | tail _ hst ih =>
    obtain ⟨c, -, hv, he⟩ := hst
    exact (good_exec ih hv he).1

theorem reachable (h : Run d entries vs vs')
    (hr : Reachable (Initial d entries) (HalfStep d entries) vs) :
    Reachable (Initial d entries) (HalfStep d entries) vs' := by
  induction h with
  | refl => exact hr
  | tail _ hst ih => exact ih.next hst

end Run

theorem run_client {c : Call} (hl : vs.handedOver = true) (hc : c.Plain)
    (hv : vs.boot.clients.Valid d c) (he : vs.exec d entries (.client c) = some vs') :
    Run d entries vs vs' := by
  have hlater : c.Later := by cases c <;> trivial
  exact Run.single (c := .client c) hc ⟨hl, hlater, hv⟩ he

theorem run_physAlloc {o : Option ℕ} (hl : vs.handedOver = true)
    (he : vs.physAlloc d PAGE_SIZE = some (o, vs')) : Run d entries vs vs' := by
  obtain ⟨r, er, hr⟩ := Option.map_eq_some_iff.mp he
  obtain ⟨-, rfl⟩ := Prod.mk.inj hr
  refine run_client (c := .alloc PAGE_SIZE) hl trivial trivial ?_
  rw [exec, Clients.exec, show vs.boot.clients.phys.physAlloc d PAGE_SIZE = some r from er]
  rfl

theorem run_slabPage (hl : vs.handedOver = true) (hp : SlabPage d entries vs vs') :
    Run d entries vs vs' := by
  rcases hp with rfl | ⟨p, vs1, e1, hp⟩
  · exact .refl
  have h1 : Run d entries vs vs1 := run_physAlloc hl e1
  cases p with
  | none => exact hp ▸ h1
  | some slab =>
    exact h1.trans (Run.single (c := .makeGlobal slab 1) trivial (h1.handedOver hl) hp)

end VirtState

open VirtState (Run)

/-- The pages of a region are in one half, and those of the lower one are for the user. -/
theorem isUserAddress_iff {a p : ℕ} (ha : a < 2 ^ 64) (hp : p = a / 4096)
    (h : (2 ^ 52 - 2 ^ 35 ≤ p ∧ p < 2 ^ 52) ∨ (2 ^ 20 ≤ p ∧ p < 2 ^ 35 - 1)) :
    virtIsUserAddress a = true ↔ pageNumber a < 2 ^ 35 := by
  have hend : vmarEnd USER_REGION_BASE USER_REGION_PAGE_COUNT = 2 ^ 47 - 4097 := by decide
  rw [virtIsUserAddress, decide_eq_true_iff, hend, pageNumber]
  omega

namespace Vmm

variable {k : Kernel} {s s' s1 s2 : Vmm} {f : ℕ → ℕ} {c p x n m offset fuel : ℕ} {rest : List ℕ}

theorem Ok.half_pages (h : s.Ok k f) (hp : s.vmars.parent x ≠ none) :
    (∀ q ∈ s.vmars.pages x, 2 ^ 52 - 2 ^ 35 ≤ q ∧ q < 2 ^ 52) ∨
      ∀ q ∈ s.vmars.pages x, 2 ^ 20 ≤ q ∧ q < 2 ^ 35 - 1 := by
  obtain ⟨root, -, -, hpages⟩ := h.pages_bound hp
  by_cases hroot : root = k.kernelRegion
  · refine Or.inl fun q hq => ?_
    rcases hpages q hq with ⟨-, h1⟩ | ⟨e, -⟩
    · exact h1
    · exact absurd (hroot.symm.trans e) k.regions_ne
  · refine Or.inr fun q hq => ?_
    rcases hpages q hq with ⟨e, -⟩ | ⟨-, h1⟩
    · exact absurd e hroot
    · exact h1

/-- An address in a vmar is one of the user if and only if its page is in the lower half. -/
theorem Ok.isUserAddress_iff {a : ℕ} (h : s.Ok k f) (hp : s.vmars.parent x ≠ none)
    (ha : a < 2 ^ 64) (hx : a / 4096 ∈ s.vmars.pages x) :
    virtIsUserAddress a = true ↔ pageNumber a < 2 ^ 35 := by
  refine Tomato.isUserAddress_iff ha rfl ?_
  rcases h.half_pages hp with hh | hh
  · exact Or.inl (hh _ hx)
  · exact Or.inr (hh _ hx)

/-- The addresses of the pages of a vmar do not wrap around. -/
theorem Ok.pageAddr_eq {i : ℕ} (h : s.Ok k f) (hp : s.vmars.parent x ≠ none)
    (hi : i < s.vmars.pageCount x) : pageAddr (s.vmars.base x) i = s.vmars.base x + i * 4096 ∧
      s.vmars.base x + i * 4096 < 2 ^ 64 ∧ s.vmars.base x / 4096 + i ∈ s.vmars.pages x := by
  have hmem : s.vmars.base x / 4096 + i ∈ s.vmars.pages x := by
    rw [pages, pageEnd, vmarFirstPage_eq]
    exact ⟨Nat.le_add_right _ _, Nat.add_lt_add_left hi _⟩
  have hlt : s.vmars.base x + i * 4096 < 2 ^ 64 := by
    rcases h.half_pages hp with hh | hh <;> have := hh _ hmem <;> omega
  exact ⟨Nat.mod_eq_of_lt hlt, hlt, hmem⟩

theorem Ok.reserve_half (h : s.Ok k f) (hp : s.vmars.parent x ≠ none) : (VirtCall.reservePageTables
    (s.vmars.base x) (s.vmars.pageCount x)).OneHalf := by
  intro i hi
  obtain ⟨e, hlt, hmem⟩ := h.pageAddr_eq hp hi
  rw [e]
  refine h.isUserAddress_iff hp hlt ?_
  rwa [Nat.add_mul_div_right _ _ (by norm_num)]

/-- The pages of a part of a vmar are populated for the user in the lower half. -/
theorem Ok.populate_half {base pageCount : ℕ} {globalPage : Bool} (h : s.Ok k f)
    (hp : s.vmars.parent x ≠ none)
    (hx : 0 < pageCount → base < 2 ^ 64 ∧ base / 4096 ∈ s.vmars.pages x)
    (hsub : rangeOf base pageCount ⊆ s.vmars.pageNumbers x) :
    (VirtCall.populate base pageCount globalPage).OneHalf := by
  intro m hm
  obtain ⟨i, hi, -⟩ := id hm
  obtain ⟨hb, hx⟩ := hx (by omega)
  obtain ⟨q, hq, rfl⟩ := hsub hm
  rw [h.isUserAddress_iff hp hb hx, pageNumber]
  rcases h.half_pages hp with hh | hh <;> have h1 := hh _ hq <;> have h2 := hh _ hx <;> omega

theorem allocVmar_run {o : Option ℕ} (hl : s.virt.handedOver = true)
    (he : s.allocVmar k = some (o, s')) : Run k.d k.entries s.virt s'.virt := by
  obtain ⟨⟨o', st⟩, e, he⟩ := Option.map_eq_some_iff.mp he
  obtain ⟨-, rfl⟩ := Prod.mk.inj he
  exact VirtState.run_slabPage hl (Slabs.memAlloc_virt e)

theorem vmarAllocate_run {res : Except TomatoErr ℕ} (hl : s.virt.handedOver = true)
    (he : s.vmarAllocate k p offset n = some (res, s')) : Run k.d k.entries s.virt s'.virt := by
  simp only [vmarAllocate, Option.bind_eq_bind] at he
  split at he
  · obtain ⟨-, rfl⟩ := Prod.mk.inj (Option.some.inj he)
    exact .refl
  split at he
  · obtain ⟨-, rfl⟩ := Prod.mk.inj (Option.some.inj he)
    exact .refl
  obtain ⟨⟨o, s1⟩, e1, he⟩ := Option.bind_eq_some_iff.mp he
  have h1 := allocVmar_run hl e1
  cases o with
  | none =>
    obtain ⟨-, rfl⟩ := Prod.mk.inj (Option.some.inj he)
    exact h1
  | some child =>
    obtain ⟨⟨res', v⟩, -, he⟩ := Option.bind_eq_some_iff.mp he
    cases res' with
    | error e =>
      have h2 : s'.virt = s1.virt := (failWith_virt (e := e) he).trans rfl
      exact h2 ▸ h1
    | ok u =>
      obtain ⟨-, rfl⟩ := Prod.mk.inj (Option.some.inj he)
      exact h1

/-- The pages that `vmar_map` reserves are those of the vmar that it is about to link. -/
theorem Ok.vmarMap_run {res : Except TomatoErr ℕ} (h : s.Ok k f) (hp : s.Known k p)
    (he : s.vmarMap k p offset n = some (res, s')) : Run k.d k.entries s.virt s'.virt := by
  simp only [Vmm.vmarMap, Option.bind_eq_bind] at he
  split at he
  · obtain ⟨-, rfl⟩ := Prod.mk.inj (Option.some.inj he)
    exact .refl
  rename_i hkind
  split at he
  · obtain ⟨-, rfl⟩ := Prod.mk.inj (Option.some.inj he)
    exact .refl
  rename_i hn
  obtain ⟨⟨o, s1⟩, e1, he⟩ := Option.bind_eq_some_iff.mp he
  have h1 := allocVmar_run h.handedOver e1
  obtain ⟨hv1, hlive1, hg1, hpage, hnew⟩ := h.allocVmar e1
  cases o with
  | none =>
    obtain ⟨-, rfl⟩ := Prod.mk.inj (Option.some.inj he)
    exact h1
  | some c =>
    have hnew := hnew c rfl
    obtain ⟨htree, hin, hunm, -⟩ := h.initVmar hnew .mapping
    obtain ⟨hcp, hknown⟩ := h.known_initVmar hnew .mapping hp
    obtain ⟨xs, hok, hxs⟩ := htree.children p
    simp only [hv1] at he
    rcases htree.vmarFindPlace offset hknown ((kind_initVmar hcp).trans (not_not.mp hkind)) hin hcp
      hunm (Nat.pos_of_ne_zero hn) hok hxs with ⟨b, m, e2, -⟩ | ⟨page, v', e2, hu, hw, e3, hl, hv'⟩
    · rw [e2] at he
      have h2 : s'.virt = s1.virt := (failWith_virt he).trans rfl
      exact h2 ▸ h1
    · rw [e2] at he
      obtain ⟨w, hw'⟩ : ∃ w, w = (s.vmars.initVmar c .mapping).setRange c (page * 4096) n := ⟨_, rfl⟩
      have hwc : w.base c = page * 4096 ∧ w.pageCount c = n := by simp [hw', Vmars.setRange]
      simp only [← hw', hwc.1, hwc.2] at he
      obtain ⟨⟨res2, s2⟩, e4, he⟩ := Option.bind_eq_some_iff.mp he
      -- the vmar could be linked at once
      have hok' := h.linkNew hnew hg1 hlive1 hpage.bootPages (by decide) hl hv'
      have hpc : v'.parent c ≠ none := by rw [hl.parent]; simp
      have hhalf := hok'.reserve_half (x := c) hpc
      have hbase : v'.base c = page * 4096 := by rw [hl.base, Function.update_self]
      have hcount : v'.pageCount c = n := by rw [hl.pageCount, Function.update_self]
      rw [hbase, hcount] at hhalf
      have h2 : Run k.d k.entries s1.virt s2.virt := by
        obtain ⟨⟨r, phys⟩, e5, e6⟩ := Option.map_eq_some_iff.mp e4
        obtain ⟨-, rfl⟩ := Prod.mk.inj e6
        refine Run.single (c := .reservePageTables (page * 4096) n) hhalf (h1.handedOver h.handedOver)
          ?_
        rw [VirtState.exec, show Phys.virtReservePageTables k.d s1.virt.pageTable s1.virt.phys
          (page * 4096) n = some (r, phys) from e5]
        rfl
      cases res2 with
      | error e =>
        have h3 : s'.virt = s2.virt := failWith_virt (e := e) he
        exact h3 ▸ h1.trans h2
      | ok u =>
        obtain ⟨v2, -, he⟩ := Option.map_eq_some_iff.mp he
        obtain ⟨-, rfl⟩ := Prod.mk.inj he
        exact h1.trans h2

/-- A vmar is populated, as a whole or the page of an address. -/
theorem Ok.execPopulate_run {base pageCount : ℕ} {globalPage : Bool} (h : s.Ok k f)
    (hp : s.vmars.parent x ≠ none)
    (hx : 0 < pageCount → base < 2 ^ 64 ∧ base / 4096 ∈ s.vmars.pages x)
    (hsub : rangeOf base pageCount ⊆ s.vmars.pageNumbers x) (hs : s1.virt = s.virt)
    (he : s1.execVirt k (.populate base pageCount globalPage) = some s') :
    Run k.d k.entries s.virt s'.virt := by
  obtain ⟨vs, e, rfl⟩ := Option.map_eq_some_iff.mp he
  rw [hs] at e
  exact Run.single (c := .populate base pageCount globalPage) (h.populate_half hp hx hsub)
    h.handedOver e

theorem Ok.vmarPopulate_run {res : Except TomatoErr Unit} (h : s.Ok k f) (hx : s.Known k x)
    (he : s.vmarPopulate k x = some (res, s')) : Run k.d k.entries s.virt s'.virt := by
  simp only [Vmm.vmarPopulate, Option.bind_eq_bind] at he
  split at he
  · obtain ⟨-, rfl⟩ := Prod.mk.inj (Option.some.inj he)
    exact .refl
  rename_i hkind
  obtain ⟨v, ev, he⟩ := Option.bind_eq_some_iff.mp he
  obtain ⟨v2, ev2, hb, hc, hl, hu, -⟩ := h.locked_exec x
  obtain rfl := Option.some.inj (ev2.symm.trans ev)
  split at he
  · obtain ⟨-, rfl⟩ := Prod.mk.inj (Option.some.inj he)
    exact .refl
  rename_i hunm
  obtain ⟨s2, e2, he⟩ := Option.bind_eq_some_iff.mp he
  obtain ⟨-, rfl⟩ := Prod.mk.inj (Option.some.inj he)
  rw [hu] at hunm
  have hp : s.vmars.parent x ≠ none := by
    rcases h.inTree hx (by simpa using hunm) with hroot | hp
    · have := (h.tree.root x hroot).2
      simp [not_not.mp hkind] at this
    · exact hp
  rw [hb, hc] at e2
  change Run k.d k.entries s.virt s2.virt
  have hrun : (s.setVmars v2).virt = s.virt := rfl
  refine h.execPopulate_run hp (fun hpos => ?_) (rangeOf_eq s.vmars x).le hrun e2
  obtain ⟨-, hlt, hmem⟩ := h.pageAddr_eq hp hpos
  rw [Nat.zero_mul, Nat.add_zero] at hlt
  exact ⟨hlt, hmem⟩

theorem execGlobal_run {base pageCount : ℕ} (hl : s.virt.handedOver = true)
    (he : s.execVirt k (.makeGlobal base pageCount) = some s') :
    Run k.d k.entries s.virt s'.virt := by
  obtain ⟨vs, e, rfl⟩ := Option.map_eq_some_iff.mp he
  exact Run.single (c := .makeGlobal base pageCount) trivial hl e

theorem lockChildren_run {lock : ℕ → Vmm → Option Vmm} {it : Option ℕ}
    (hlock : ∀ x s s', s.virt.handedOver = true → lock x s = some s' →
      Run k.d k.entries s.virt s'.virt)
    (hl : s.virt.handedOver = true) (he : lockChildren lock n it s = some s') :
    Run k.d k.entries s.virt s'.virt := by
  induction n generalizing it s with
  | zero =>
    cases it with
    | none => exact Option.some.inj he ▸ .refl
    | some x => simp [lockChildren] at he
  | succ n ih =>
    cases it with
    | none => exact Option.some.inj he ▸ .refl
    | some x =>
      obtain ⟨s1, e1, he⟩ := Option.bind_eq_some_iff.mp he
      have h1 := hlock _ _ _ hl e1
      exact h1.trans (ih (h1.handedOver hl) he)

theorem vmarLockInternal_run (hl : s.virt.handedOver = true)
    (he : s.vmarLockInternal k fuel x = some s') : Run k.d k.entries s.virt s'.virt := by
  induction fuel generalizing x s s' with
  | zero => simp [vmarLockInternal] at he
  | succ fuel ih =>
    simp only [vmarLockInternal, Option.bind_eq_bind] at he
    split at he
    · have h1 : Run k.d k.entries (s.setVmars (s.vmars.setLocked x)).virt s'.virt :=
        lockChildren_run (fun x s s' hl he => ih hl he) hl he
      exact h1
    · obtain ⟨v, -, he⟩ := Option.bind_eq_some_iff.mp he
      obtain ⟨s1, e1, he⟩ := Option.bind_eq_some_iff.mp he
      obtain rfl := Option.some.inj he
      have h1 : Run k.d k.entries ((s.setVmars (s.vmars.setLocked x)).setVmars v).virt s1.virt :=
        execGlobal_run hl e1
      exact h1
    · exact Option.some.inj he ▸ .refl

/-- The children of a region are unmapped one after the other. -/
theorem unmapChildren_run {unmap : ℕ → Vmm → Option Vmm} (hspec : UnmapSpec k fuel unmap)
    (hunmap : ∀ x s s' f, s.Ok k f → s.PagesOk k → unmap x s = some s' →
      Run k.d k.entries s.virt s'.virt)
    (h : s.Ok k f) (hpg : s.PagesOk k) (hok : s.vmars.ChildrenOk p rest)
    (hmem : ∀ z, z ∈ rest ↔ s.vmars.parent z = some p)
    (he : unmapChildren k unmap m rest.head? s = some s') : Run k.d k.entries s.virt s'.virt := by
  induction rest generalizing s m with
  | nil =>
    have hloop : unmapChildren k unmap m none s = some s := by cases m <;> rfl
    obtain rfl := Option.some.inj (hloop.symm.trans he)
    exact .refl
  | cons x rest ih =>
    have hx : s.vmars.parent x = some p := (hmem x).mp (by simp)
    have hnext : s.vmars.next x = rest.head? := hok.tree.links.next [] x rest rfl
    cases m with
    | zero => simp [unmapChildren] at he
    | succ m =>
      simp only [List.head?_cons, unmapChildren, hnext, Option.bind_eq_bind] at he
      split at he
      · simp at he
      split at he
      · simp at he
      obtain ⟨s1, e1, he⟩ := Option.bind_eq_some_iff.mp he
      obtain ⟨s2, e2, he⟩ := Option.bind_eq_some_iff.mp he
      obtain ⟨s3, e3, hok2, hpg2, hd2, -⟩ := unmapChild_spec hspec h hpg hx e1
      obtain rfl := Option.some.inj (e3.symm.trans e2)
      obtain ⟨hrest, hmem2⟩ := h.siblings hd2 hok2 hx hok hmem
      have h1 := hunmap _ _ _ _ h hpg e1
      rw [← objectPut_virt e2] at h1
      exact h1.trans (ih hok2 hpg2 hrest hmem2 he)

theorem vmarUnmapInternal_run (h : s.Ok k f) (hpg : s.PagesOk k)
    (he : s.vmarUnmapInternal k fuel x = some s') : Run k.d k.entries s.virt s'.virt := by
  induction fuel generalizing x s s' f with
  | zero => simp [vmarUnmapInternal] at he
  | succ fuel ih =>
    simp only [vmarUnmapInternal, Option.bind_eq_bind] at he
    split at he
    · simp at he
    split at he
    · simp at he
    obtain ⟨q, hq, he⟩ := Option.bind_eq_some_iff.mp he
    have hp : s.vmars.parent x ≠ none := by simp [hq]
    split at he
    · simp at he
    split at he
    · obtain ⟨s1, e1, he⟩ := Option.bind_eq_some_iff.mp he
      obtain ⟨v, -, rfl⟩ := Option.map_eq_some_iff.mp he
      obtain ⟨rest, hok, hmem⟩ := h.tree.children x
      rw [show s.vmars.leftmost x = rest.head? from hok.tree.links.leftmost] at e1
      change Run k.d k.entries s.virt s1.virt
      exact unmapChildren_run (unmapSpec k fuel) (fun x s s' f h hpg he => ih h hpg he) h hpg hok hmem
        e1
    · rename_i hk
      obtain ⟨v, ev, he⟩ := Option.bind_eq_some_iff.mp he
      obtain ⟨s1, e1, he⟩ := Option.bind_eq_some_iff.mp he
      obtain ⟨v', -, rfl⟩ := Option.map_eq_some_iff.mp he
      obtain ⟨v2, ev2, hb, hc, -⟩ := h.locked_exec x
      obtain rfl := Option.some.inj (ev2.symm.trans ev)
      obtain ⟨vs, e2, rfl⟩ := Option.map_eq_some_iff.mp e1
      rw [hb, hc] at e2
      refine Run.single (c := .free (s.vmars.base x) (s.vmars.pageCount x)) trivial
        ⟨h.handedOver, fun n hn => ?_⟩ e2
      rw [rangeOf_eq] at hn
      exact h.notMem_boot hp hk hn
    · simp at he

theorem Ok.vmarUnmap_run (h : s.Ok k f) (hpg : s.PagesOk k)
    (he : s.vmarUnmap k fuel x = some s') : Run k.d k.entries s.virt s'.virt := by
  rw [Vmm.vmarUnmap] at he
  split at he
  · exact Option.some.inj he ▸ .refl
  · obtain ⟨s1, e1, he⟩ := Option.bind_eq_some_iff.mp he
    exact objectPut_virt he ▸ vmarUnmapInternal_run h hpg e1

end Vmm

open Vmm

namespace VmmRun

variable {k : Kernel} {r r' : VmmRun} {fuel : ℕ} {c : VmmCall}

/-- Every call on vmars is a run of the page table. -/
theorem virtRun_exec (h : r.Good k) (hv : r.Valid k c) (he : r.exec k fuel c = some r') :
    Run k.d k.entries r.vmm.virt r'.vmm.virt := by
  obtain ⟨hok, hpg⟩ := id h
  have hl := hok.handedOver
  cases c with
  | link parent child =>
    obtain ⟨v, -, rfl⟩ := Option.map_eq_some_iff.mp he
    exact .refl
  | allocateStatic parent child offset n =>
    obtain ⟨⟨res, v⟩, -, rfl⟩ := Option.map_eq_some_iff.mp he
    exact .refl
  | allocate parent offset n =>
    obtain ⟨⟨res, s⟩, e, rfl⟩ := Option.map_eq_some_iff.mp he
    exact vmarAllocate_run hl e
  | map parent offset n =>
    obtain ⟨⟨res, s⟩, e, rfl⟩ := Option.map_eq_some_iff.mp he
    exact hok.vmarMap_run hv e
  | populate x =>
    obtain ⟨⟨res, s⟩, e, rfl⟩ := Option.map_eq_some_iff.mp he
    exact hok.vmarPopulate_run hv e
  | lock x =>
    obtain ⟨s, e, rfl⟩ := Option.map_eq_some_iff.mp he
    rw [Vmm.vmarLock] at e
    split at e
    · simp at e
    · exact vmarLockInternal_run hl e
  | unmap x =>
    obtain ⟨s, e, rfl⟩ := Option.map_eq_some_iff.mp he
    exact hok.vmarUnmap_run hpg e
  | findMapping root address =>
    obtain ⟨⟨o, v⟩, -, rfl⟩ := Option.map_eq_some_iff.mp he
    cases o <;> exact .refl
  | get x =>
    obtain rfl := Option.some.inj he
    exact .refl
  | put x =>
    obtain ⟨s, e, rfl⟩ := Option.map_eq_some_iff.mp he
    exact (objectPut_virt e).symm ▸ .refl
  | pageFault address errorCode =>
    simp only [exec] at he
    split at he
    · rename_i err s e
      obtain rfl := Option.some.inj he
      obtain ⟨n, res, s', hrun, hcase⟩ := hok.virtPageFaultHandler hpg address errorCode
      have heq := (Vmm.virtPageFaultHandler_mono e (Nat.le_max_left fuel (n + 1))).symm.trans
        (hrun _ (lt_of_lt_of_le (Nat.lt_succ_self n) (Nat.le_max_right fuel (n + 1))))
      obtain ⟨rfl, rfl⟩ := Prod.mk.inj (Option.some.inj heq)
      rcases hcase with ⟨m, vs, -, rfl, -, -, hd⟩ | ⟨e, -, rfl⟩ | ⟨hc, -⟩
      · obtain ⟨hp, -⟩ := hok.linked_of_below hd.below (hok.kind_faultRoot address errorCode) hd.kind
        have hmem := (hok.contains_iff hp).mp hd.contains
        refine Run.single (c := .populate address 1 _) (hok.populate_half hp (fun _ => ⟨?_, hmem⟩) ?_)
          hl hd.exec
        · rcases hok.half_pages hp with hh | hh <;> have := hh _ hmem <;> omega
        · rw [rangeOf_one, Set.singleton_subset_iff]
          exact pageNumber_mem hmem
      · exact .refl
      · simp at hc
    · simp at he
  | newSlab =>
    obtain ⟨vs, e, rfl⟩ := Option.map_eq_some_iff.mp he
    exact VirtState.run_slabPage hl (newSlab_slabPage e)
  | client c =>
    obtain ⟨s, e, rfl⟩ := Option.map_eq_some_iff.mp he
    obtain ⟨hc, hvalid⟩ := hv
    obtain ⟨vs, e2, rfl⟩ := Option.map_eq_some_iff.mp e
    exact VirtState.run_client hl hc hvalid.1.2.2 e2

end VmmRun

end Tomato
