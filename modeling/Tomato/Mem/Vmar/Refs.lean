import Tomato.Mem.Virt.Exact
import Tomato.Mem.Vmar.Calls

/-!
# References to the VMARs

`Vmm.Ok` ties the tree to the objects of the allocator: an object that is handed out has one
reference for the tree, if it is linked, and one for each handle that somebody holds, and
the memory of the others is zero. The pages that were mapped at boot are in special vmars.
-/

namespace Tomato

open RbTree Ranges Forest Transition Blocks Vmars

namespace Vmars

/-- All the fields of the object are zero. -/
structure Blank (v : Vmars) (x : ℕ) : Prop where
  refCount : v.refCount x = 0
  base : v.base x = 0
  pageCount : v.pageCount x = 0
  parent : v.parent x = none
  gap : v.gap x = 0
  maxGap : v.maxGap x = 0
  kind : v.kind x = .region
  unmapped : v.unmapped x = false
  locked : v.locked x = false
  prev : v.prev x = none
  next : v.next x = none
  children : v.children x = .nil
  leftmost : v.leftmost x = none
  pageTableLock : v.pageTableLock x = false

variable {v v' : Vmars} {x y : ℕ}

theorem blank_wipe (v : Vmars) (x : ℕ) : (v.wipe x).Blank x := by
  constructor <;> exact Function.update_self _ _ _

theorem sameBut_wipe (v : Vmars) (x : ℕ) : SameBut x v (v.wipe x) := by
  constructor <;> intro z hz <;> exact Function.update_of_ne hz _ _

theorem Blank.wipe_eq (h : v.Blank x) : v.wipe x = v := by
  have hfield : ∀ {α : Type} {f : ℕ → α} {a : α}, f x = a → Function.update f x a = f :=
    fun h => Function.update_eq_self_iff.mpr h.symm
  simp only [wipe, hfield h.refCount, hfield h.base, hfield h.pageCount, hfield h.parent, hfield h.gap, hfield h.maxGap, hfield h.kind, hfield h.unmapped, hfield h.locked, hfield h.prev, hfield h.next, hfield h.children, hfield h.leftmost, hfield h.pageTableLock]

namespace SameBut

theorem refl (x : ℕ) (v : Vmars) : SameBut x v v := by constructor <;> intros <;> rfl

theorem trans {v'' : Vmars} (h : SameBut x v v') (h' : SameBut x v' v'') : SameBut x v v'' where
  refCount := fun z hz => (h'.refCount z hz).trans (h.refCount z hz)
  base := fun z hz => (h'.base z hz).trans (h.base z hz)
  pageCount := fun z hz => (h'.pageCount z hz).trans (h.pageCount z hz)
  parent := fun z hz => (h'.parent z hz).trans (h.parent z hz)
  gap := fun z hz => (h'.gap z hz).trans (h.gap z hz)
  maxGap := fun z hz => (h'.maxGap z hz).trans (h.maxGap z hz)
  kind := fun z hz => (h'.kind z hz).trans (h.kind z hz)
  unmapped := fun z hz => (h'.unmapped z hz).trans (h.unmapped z hz)
  locked := fun z hz => (h'.locked z hz).trans (h.locked z hz)
  prev := fun z hz => (h'.prev z hz).trans (h.prev z hz)
  next := fun z hz => (h'.next z hz).trans (h.next z hz)
  children := fun z hz => (h'.children z hz).trans (h.children z hz)
  leftmost := fun z hz => (h'.leftmost z hz).trans (h.leftmost z hz)
  pageTableLock := fun z hz => (h'.pageTableLock z hz).trans (h.pageTableLock z hz)

/-- The other objects stay zero. -/
theorem blank (h : SameBut x v v') (hy : v.Blank y) (hne : y ≠ x) : v'.Blank y where
  refCount := (h.refCount y hne).trans hy.refCount
  base := (h.base y hne).trans hy.base
  pageCount := (h.pageCount y hne).trans hy.pageCount
  parent := (h.parent y hne).trans hy.parent
  gap := (h.gap y hne).trans hy.gap
  maxGap := (h.maxGap y hne).trans hy.maxGap
  kind := (h.kind y hne).trans hy.kind
  unmapped := (h.unmapped y hne).trans hy.unmapped
  locked := (h.locked y hne).trans hy.locked
  prev := (h.prev y hne).trans hy.prev
  next := (h.next y hne).trans hy.next
  children := (h.children y hne).trans hy.children
  leftmost := (h.leftmost y hne).trans hy.leftmost
  pageTableLock := (h.pageTableLock y hne).trans hy.pageTableLock

/-- An object that was zero is as before once it is wiped. -/
theorem wipe_eq (h : SameBut x v v') (hb : v.Blank x) : v'.wipe x = v := by
  have hfield : ∀ {α : Type} {f g : ℕ → α} {a : α}, (∀ z, z ≠ x → g z = f z) →
      Function.update g x a = Function.update f x a := by
    intro α f g a hfg
    funext z
    by_cases hz : z = x
    · rw [hz, Function.update_self, Function.update_self]
    · rw [Function.update_of_ne hz, Function.update_of_ne hz, hfg z hz]
  refine Eq.trans ?_ hb.wipe_eq
  simp only [wipe, hfield h.refCount, hfield h.base, hfield h.pageCount, hfield h.parent, hfield h.gap, hfield h.maxGap, hfield h.kind, hfield h.unmapped, hfield h.locked, hfield h.prev, hfield h.next, hfield h.children, hfield h.leftmost, hfield h.pageTableLock]

end SameBut

/-- The references that the tree holds. -/
def linked (v : Vmars) (x : ℕ) : ℕ := if v.parent x = none then 0 else 1

/-- The pages of a vmar, as the page table counts them. -/
def pageNumbers (v : Vmars) (x : ℕ) : Set ℕ := {n | ∃ p ∈ v.pages x, n = p % 2 ^ 36}

theorem pages_congr (hb : v'.base x = v.base x) (hc : v'.pageCount x = v.pageCount x) :
    v'.pages x = v.pages x := by
  rw [pages, pages, pageEnd, pageEnd, vmarFirstPage, vmarFirstPage, hb, hc]

theorem pageNumbers_congr (hb : v'.base x = v.base x) (hc : v'.pageCount x = v.pageCount x) :
    v'.pageNumbers x = v.pageNumbers x := by
  rw [pageNumbers, pageNumbers, pages_congr hb hc]

/-- The range that the functions of the page table go over. -/
theorem rangeOf_eq (v : Vmars) (x : ℕ) :
    rangeOf (v.base x) (v.pageCount x) = v.pageNumbers x := by
  ext n
  simp only [rangeOf, pageNumbers, pages, Set.mem_ofPred_eq, Set.mem_Ico, pageEnd,
    vmarFirstPage_eq, pageNumber_pageAddr]
  constructor
  · rintro ⟨i, hi, rfl⟩
    exact ⟨v.base x / 4096 + i, ⟨by omega, by omega⟩, rfl⟩
  · rintro ⟨p, ⟨h1, h2⟩, rfl⟩
    refine ⟨p - v.base x / 4096, by omega, ?_⟩
    congr 1
    omega

end Vmars

def Kernel.roots (k : Kernel) : Set ℕ := {k.kernelRegion, k.userRegion}

namespace Vmm

/-- The objects, their references and the tree. `f` counts the handles. -/
structure Ok (k : Kernel) (s : Vmm) (f : ℕ → ℕ) : Prop where
  slabs : s.run.Good k.d k.entries k.alloc k.vmarType.allocMeta
  tree : Vmars.VmarsOk k.roots s.vmars
  kernelRegion : s.vmars.base k.kernelRegion = KERNEL_REGION_BASE ∧
    s.vmars.pageCount k.kernelRegion = 2 ^ 35
  userRegion : s.vmars.base k.userRegion = 2 ^ 32 ∧
    s.vmars.pageCount k.userRegion = 2 ^ 35 - 2 ^ 20 - 1
  static : ∀ x ∉ k.d.range, x ∉ k.roots → s.vmars.kind x = .special
  dead : ∀ x ∈ k.d.range, x ∉ s.run.live → s.vmars.Blank x
  refs : ∀ x ∈ s.run.live, s.vmars.refCount x = s.vmars.linked x + f x
  used : ∀ x ∈ s.run.live, 0 < s.vmars.refCount x
  cut : ∀ x ∈ s.run.live, s.vmars.parent x = none → s.vmars.unmapped x = true
  kinds : ∀ x ∈ s.run.live, s.vmars.kind x ≠ .special
  held : ∀ x, f x ≠ 0 → x ∈ s.run.live
  unlocked : ∀ x, s.vmars.pageTableLock x = false
  boot : ∀ n ∈ s.virt.bootPages, n < 2 ^ 36 → ∃ x, s.vmars.kind x = .special ∧
    s.vmars.parent x ≠ none ∧ n ∈ s.vmars.pageNumbers x

/-- What a caller may hand in: a root, a vmar in the tree, or an object that is not freed. -/
def Known (k : Kernel) (s : Vmm) (x : ℕ) : Prop :=
  s.vmars.InTree k.roots x ∨ x ∈ s.run.live

variable {k : Kernel} {s s' : Vmm} {f : ℕ → ℕ} {x y n : ℕ} {r : SlabRun}

namespace Ok

theorem live_subset (h : s.Ok k f) (hx : x ∈ s.run.live) : x ∈ k.d.range :=
  h.slabs.live_subset k.defineAlloc.ok hx

theorem notMem_roots (hx : x ∈ k.d.range) : x ∉ k.roots := by
  rintro (rfl | rfl)
  · exact k.kernelRegion_outside hx
  · exact k.userRegion_outside hx

/-- An object that is not handed out is not in the tree. -/
theorem not_inTree (h : s.Ok k f) (hx : x ∈ k.d.range) (hl : x ∉ s.run.live) :
    ¬ s.vmars.InTree k.roots x := by
  rintro (hr | hp)
  · exact notMem_roots hx hr
  · exact hp (h.dead x hx hl).parent

theorem inTree (h : s.Ok k f) (hx : s.Known k x) (hu : s.vmars.unmapped x = false) :
    s.vmars.InTree k.roots x := by
  rcases hx with hx | hx
  · exact hx
  · refine Or.inr fun hp => ?_
    simp [h.cut x hx hp] at hu

/-- A region or a mapping in the tree is an object, or a root. -/
theorem mem_live (h : s.Ok k f) (hp : s.vmars.parent x ≠ none) (hk : s.vmars.kind x ≠ .special) :
    x ∈ s.run.live := by
  by_contra hl
  by_cases hx : x ∈ k.d.range
  · exact hp (h.dead x hx hl).parent
  · refine hk (h.static x hx fun hr => hp (h.tree.root x hr).1)

/-- The pages of a vmar in the tree are in one of the two halves. -/
theorem pages_bound (h : s.Ok k f) (hp : s.vmars.parent x ≠ none) :
    ∃ root ∈ k.roots, Below s.vmars.parent x root ∧ ∀ p ∈ s.vmars.pages x,
      (root = k.kernelRegion ∧ 2 ^ 52 - 2 ^ 35 ≤ p ∧ p < 2 ^ 52) ∨
      (root = k.userRegion ∧ 2 ^ 20 ≤ p ∧ p < 2 ^ 35 - 1) := by
  obtain ⟨q, hq⟩ := Option.ne_none_iff_exists'.mp hp
  obtain ⟨root, hroot, hb⟩ := h.tree.below x q hq
  refine ⟨root, hroot, hb, fun p hpx => ?_⟩
  have hpr := h.tree.nested.subset hb hpx
  have hK : KERNEL_REGION_BASE = 0xFFFF800000000000 := rfl
  rcases hroot with rfl | rfl
  · rw [Vmars.pages, Set.mem_Ico, Vmars.pageEnd, Vmars.vmarFirstPage_eq, h.kernelRegion.1,
      h.kernelRegion.2, hK] at hpr
    exact Or.inl ⟨rfl, by omega, by omega⟩
  · rw [Vmars.pages, Set.mem_Ico, Vmars.pageEnd, Vmars.vmarFirstPage_eq, h.userRegion.1,
      h.userRegion.2] at hpr
    exact Or.inr ⟨rfl, by omega, by omega⟩

/-- No page is in two mappings, and none is in a mapping and in a special vmar. -/
theorem eq_of_page (h : s.Ok k f) (hx : s.vmars.parent x ≠ none) (hy : s.vmars.parent y ≠ none)
    (hkx : s.vmars.kind x ≠ .region) (hky : s.vmars.kind y ≠ .region)
    (hnx : n ∈ s.vmars.pageNumbers x) (hny : n ∈ s.vmars.pageNumbers y) : x = y := by
  obtain ⟨p, hp, rfl⟩ := hnx
  obtain ⟨q, hq, hpq⟩ := hny
  obtain ⟨rx, -, hbx, hrx⟩ := h.pages_bound hx
  obtain ⟨ry, -, hby, hry⟩ := h.pages_bound hy
  have hne := k.regions_ne
  obtain ⟨rfl, rfl⟩ : rx = ry ∧ p = q := by
    rcases hrx p hp with ⟨e, h1, h2⟩ | ⟨e, h1, h2⟩ <;>
      rcases hry q hq with ⟨e', h3, h4⟩ | ⟨e', h3, h4⟩
    · exact ⟨e.trans e'.symm, by omega⟩
    · omega
    · omega
    · exact ⟨e.trans e'.symm, by omega⟩
  exact h.tree.leaf_unique hbx hby hkx hky hp hq

/-- The pages of a mapping were not mapped at boot. -/
theorem notMem_boot (h : s.Ok k f) (hp : s.vmars.parent x ≠ none)
    (hk : s.vmars.kind x = .mapping) (hn : n ∈ s.vmars.pageNumbers x) : n ∉ s.virt.bootPages := by
  intro hb
  obtain ⟨p, -, hp36⟩ := id hn
  obtain ⟨y, hky, hpy, hny⟩ := h.boot n hb (hp36 ▸ Nat.mod_lt _ (by norm_num))
  obtain rfl := h.eq_of_page hp hpy (by simp [hk]) (by simp [hky]) hn hny
  simp [hk] at hky

/-- Only the memory below the objects changes. -/
theorem congr_run (h : s.Ok k f) (hg : r.Good k.d k.entries k.alloc k.vmarType.allocMeta)
    (hlive : r.live = s.run.live) (hboot : r.slabs.virt.bootPages = s.virt.bootPages) :
    Ok k ⟨r, s.vmars⟩ f where
  slabs := hg
  tree := h.tree
  kernelRegion := h.kernelRegion
  userRegion := h.userRegion
  static := h.static
  dead := fun x hx hl => h.dead x hx (hlive ▸ hl)
  refs := fun x hx => h.refs x (hlive ▸ hx)
  used := fun x hx => h.used x (hlive ▸ hx)
  cut := fun x hx => h.cut x (hlive ▸ hx)
  kinds := fun x hx => h.kinds x (hlive ▸ hx)
  held := fun x hx => hlive.symm ▸ h.held x hx
  unlocked := h.unlocked
  boot := fun n hn => h.boot n (hboot ▸ hn)

/-- A call on the page table and the physical allocator. -/
theorem execVirt {c : VirtCall} (h : s.Ok k f) (hv : s.run.Valid k.d (.other c))
    (he : s.execVirt k c = some s') : s'.Ok k f ∧ s'.vmars = s.vmars ∧
      s'.run.live = s.run.live ∧ s.virt.exec k.d k.entries c = some s'.virt := by
  obtain ⟨vs, e, rfl⟩ := Option.map_eq_some_iff.mp he
  have hgood := SlabRun.good_exec k.alloc_ok k.defineAlloc.ok h.slabs hv
    (show s.run.exec k.d k.entries k.alloc k.vmarType.allocMeta (.other c) = some _ by
      rw [SlabRun.exec, show s.run.slabs.virt.exec k.d k.entries c = some vs from e]
      rfl)
  exact ⟨h.congr_run hgood rfl (VirtState.bootPages_of_exec h.slabs.1.handedOver hv.1 e), rfl, rfl,
    e⟩

/-- The references of an object are counted anew. -/
theorem setRef {m : ℕ} (h : s.Ok k f) (hx : x ∈ s.run.live) (hn : n = s.vmars.linked x + m)
    (hpos : 0 < n) :
    Ok k (s.setVmars { s.vmars with refCount := Function.update s.vmars.refCount x n })
      (Function.update f x m) where
  slabs := h.slabs
  tree := h.tree.congr rfl rfl rfl rfl rfl rfl rfl rfl rfl rfl rfl
  kernelRegion := h.kernelRegion
  userRegion := h.userRegion
  static := h.static
  dead := fun y hy hl => by
    have hb := h.dead y hy hl
    have hyx : y ≠ x := by
      rintro rfl
      exact hl hx
    exact { hb with refCount := (Function.update_of_ne hyx _ _).trans hb.refCount }
  refs := fun y hy => by
    change Function.update s.vmars.refCount x n y = s.vmars.linked y + Function.update f x m y
    by_cases hyx : y = x
    · rw [hyx, Function.update_self, Function.update_self, hn]
    · rw [Function.update_of_ne hyx, Function.update_of_ne hyx, h.refs y hy]
  used := fun y hy => by
    change 0 < Function.update s.vmars.refCount x n y
    by_cases hyx : y = x
    · rwa [hyx, Function.update_self]
    · rw [Function.update_of_ne hyx]
      exact h.used y hy
  cut := h.cut
  kinds := h.kinds
  held := fun y hy => by
    by_cases hyx : y = x
    · exact hyx ▸ hx
    · rw [Function.update_of_ne hyx] at hy
      exact h.held y hy
  unlocked := h.unlocked
  boot := h.boot

/-- An object that is in no tree and has no handles is freed. -/
theorem freeVmar (h : s.Ok k f) (hx : x ∈ s.run.live) (hp : s.vmars.parent x = none)
    (hf : f x = 1) : ∃ r, s.freeVmar k x = some ⟨r, s.vmars.wipe x⟩ ∧
      r.live = s.run.live.erase x ∧ r.slabs.virt = s.virt ∧
      Ok k ⟨r, s.vmars.wipe x⟩ (Function.update f x 0) := by
  obtain ⟨r, e, hg, hlive, hvirt⟩ := h.slabs.memFree k.alloc_ok k.defineAlloc.ok hx
  have hr : x ∉ k.roots := notMem_roots (h.live_subset hx)
  have hin : ¬ s.vmars.InTree k.roots x := fun hc => hc.elim hr fun hne => hne hp
  have hsb := Vmars.sameBut_wipe s.vmars x
  have hb := Vmars.blank_wipe s.vmars x
  have hnd : s.run.live.Nodup := by
    obtain ⟨-, lists, hi, -⟩ := h.slabs
    exact hi.live_nodup
  have hmem : ∀ y, y ∈ r.live ↔ y ≠ x ∧ y ∈ s.run.live := fun y => by
    rw [hlive, hnd.mem_erase_iff]
  have hroot : ∀ root ∈ k.roots, root ≠ x := by
    rintro root hroot rfl
    exact hr hroot
  have hk : k.kernelRegion ≠ x := hroot _ (Or.inl rfl)
  have hu : k.userRegion ≠ x := hroot _ (Or.inr rfl)
  refine ⟨r, by rw [Vmm.freeVmar, if_pos hx, e, Option.map_some], hlive, hvirt, hg,
    h.tree.outside hsb hin hb.parent hb.children hb.leftmost, ?_, ?_, fun y hy hyr => ?_,
    fun y hy hl => ?_, fun y hy => ?_, fun y hy => ?_, fun y hy => ?_, fun y hy => ?_,
    fun y hy => ?_, fun y => ?_, fun n hn hlt => ?_⟩
  · exact ⟨(hsb.base _ hk).trans h.kernelRegion.1, (hsb.pageCount _ hk).trans h.kernelRegion.2⟩
  · exact ⟨(hsb.base _ hu).trans h.userRegion.1, (hsb.pageCount _ hu).trans h.userRegion.2⟩
  · have hyx : y ≠ x := by
      rintro rfl
      exact hy (h.live_subset hx)
    exact (hsb.kind y hyx).trans (h.static y hy hyr)
  · by_cases hyx : y = x
    · exact hyx ▸ hb
    · exact hsb.blank (h.dead y hy fun hc => hl ((hmem y).mpr ⟨hyx, hc⟩)) hyx
  · obtain ⟨hyx, hyl⟩ := (hmem y).mp hy
    change (s.vmars.wipe x).refCount y = (s.vmars.wipe x).linked y + _
    rw [Vmars.linked, hsb.refCount y hyx, hsb.parent y hyx, Function.update_of_ne hyx]
    exact h.refs y hyl
  · obtain ⟨hyx, hyl⟩ := (hmem y).mp hy
    exact (hsb.refCount y hyx).symm ▸ h.used y hyl
  · obtain ⟨hyx, hyl⟩ := (hmem y).mp hy
    change (s.vmars.wipe x).parent y = none → (s.vmars.wipe x).unmapped y = true
    rw [hsb.parent y hyx, hsb.unmapped y hyx]
    exact h.cut y hyl
  · obtain ⟨hyx, hyl⟩ := (hmem y).mp hy
    change (s.vmars.wipe x).kind y ≠ _
    rw [hsb.kind y hyx]
    exact h.kinds y hyl
  · by_cases hyx : y = x
    · simp [hyx] at hy
    · rw [Function.update_of_ne hyx] at hy
      exact (hmem y).mpr ⟨hyx, h.held y hy⟩
  · by_cases hyx : y = x
    · exact hyx ▸ hb.pageTableLock
    · exact (hsb.pageTableLock y hyx).trans (h.unlocked y)
  · rw [show (⟨r, s.vmars.wipe x⟩ : Vmm).virt = s.virt from hvirt] at hn
    obtain ⟨y, hky, hpy, hny⟩ := h.boot n hn hlt
    have hyx : y ≠ x := by
      rintro rfl
      exact hpy hp
    refine ⟨y, (hsb.kind y hyx).trans hky, fun hc => hpy ((hsb.parent y hyx).symm.trans hc), ?_⟩
    rwa [Vmars.pageNumbers_congr (hsb.base y hyx) (hsb.pageCount y hyx)]

/-- A handle is given back. The object is freed with the last reference. -/
theorem objectPut (h : s.Ok k f) (hx : 0 < f x) :
    ∃ s', s.objectPut k x = some s' ∧ s'.Ok k (Function.update f x (f x - 1)) ∧
      s'.virt = s.virt ∧
      ((f x = 1 ∧ s.vmars.parent x = none ∧ s'.vmars = s.vmars.wipe x ∧
          s'.run.live = s.run.live.erase x) ∨
        ((s.vmars.parent x ≠ none ∨ 1 < f x) ∧ s'.vmars = s.vmars.dropRef x ∧
          s'.run = s.run)) := by
  have hl := h.held x (by omega)
  have hrefs := h.refs x hl
  by_cases hlast : s.vmars.refCount x = 1
  · have hlink : s.vmars.linked x = 0 ∧ f x = 1 := by omega
    have hp : s.vmars.parent x = none := by
      by_contra hne
      simp [Vmars.linked, hne] at hlink
    obtain ⟨r, e, hlive, hvirt, hok⟩ := h.freeVmar hl hp hlink.2
    have hwipe : (s.vmars.dropRef x).wipe x = s.vmars.wipe x := by
      simp [Vmars.wipe, Vmars.dropRef]
    have hunm : (s.vmars.dropRef x).unmapped x = true := h.cut x hl hp
    refine ⟨⟨r, s.vmars.wipe x⟩, ?_, by rwa [hlink.2], hvirt, Or.inl ⟨hlink.2, hp, rfl, hlive⟩⟩
    simp only [Vmm.freeVmar, hl, if_true] at e
    obtain ⟨r', e', he'⟩ := Option.map_eq_some_iff.mp e
    obtain rfl : r' = r := congrArg Vmm.run he'
    simp only [Vmm.objectPut, hlast, one_ne_zero, if_false, if_true, vmarFree, setVmars, hunm,
      Vmm.freeVmar, hl, hwipe, e', Option.map_some]
  · have hpos : s.vmars.refCount x ≠ 0 := by omega
    refine ⟨s.setVmars (s.vmars.dropRef x), by simp [Vmm.objectPut, hlast, hpos],
      h.setRef hl (by omega) (by omega), rfl, Or.inr ⟨?_, rfl, rfl⟩⟩
    by_cases hp : s.vmars.parent x = none
    · simp only [Vmars.linked, hp, if_true] at hrefs
      exact Or.inr (by omega)
    · exact Or.inl hp

/-- One more handle. -/
theorem objectGet (h : s.Ok k f) (hx : x ∈ s.run.live) :
    (s.setVmars (s.vmars.objectGet x)).Ok k (Function.update f x (f x + 1)) := by
  have hrefs := h.refs x hx
  exact h.setRef hx (by omega) (by omega)

/-- A mapping is locked and unlocked. -/
theorem lockPageTable (h : s.Ok k f) (x : ℕ) :
    ∃ v, s.vmars.lockPageTable x = some v ∧ SameBut x s.vmars v ∧
      v = { s.vmars with pageTableLock := v.pageTableLock } ∧ v.unlockPageTable x = s.vmars := by
  refine ⟨_, by rw [Vmars.lockPageTable, h.unlocked x, if_neg (by simp)], ?_, rfl, ?_⟩
  · constructor <;> intro z hz <;> first | rfl | exact Function.update_of_ne hz _ _
  · simp only [unlockPageTable, Function.update_idem]
    rw [Function.update_eq_self_iff.mpr (h.unlocked x).symm]

end Ok

end Vmm

end Tomato
