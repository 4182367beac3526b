import Tomato.Mem.Virt.After
import Tomato.Mem.Vmar.Refs

/-!
# Allocating and mapping

`vmar_allocate` and `vmar_map` either link a new object at the wanted place, with one
reference for the tree and one for the caller, or they leave the objects and the tree as
they were.
-/

namespace Tomato

open RbTree Ranges Forest Transition Blocks Vmars

theorem SlabPage.bootPages {d : DirectMap} {entries : Memmap} {vs vs' : VirtState}
    (h : SlabPage d entries vs vs') : vs'.bootPages = vs.bootPages := by
  rcases h with rfl | ⟨p, vs1, e, h⟩
  · rfl
  · obtain ⟨r, -, he⟩ := Option.map_eq_some_iff.mp e
    have h1 : vs1.bootPages = vs.bootPages := (congrArg (fun q => q.2.bootPages) he).symm
    cases p with
    | none => exact h ▸ h1
    | some slab =>
      obtain ⟨t, -, rfl⟩ := Option.map_eq_some_iff.mp h
      exact h1

namespace Vmm

variable {k : Kernel} {s s' : Vmm} {f : ℕ → ℕ} {p c n offset page : ℕ} {r : SlabRun}
  {v v' : Vmars} {kind : VmarKind}

/-- The object `c` is the new child of `p`, and the caller holds a reference. -/
structure Allocated (k : Kernel) (s s' : Vmm) (f : ℕ → ℕ) (p c : ℕ) (kind : VmarKind)
    (offset n : ℕ) : Prop where
  new : c ∈ k.d.range ∧ c ∉ s.run.live
  live : s'.run.live = c :: s.run.live
  ok : s'.Ok k (Function.update f c 1)
  region : s.vmars.kind p = .region
  mapped : s.vmars.unmapped p = false
  pos : 0 < n
  place : ∃ xs page, s.vmars.ChildrenOk p xs ∧ (∀ x, x ∈ xs ↔ s.vmars.parent x = some p) ∧
    s.vmars.Wanted p offset n xs page ∧
    Linked (s.vmars.initVmar c kind) s'.vmars p c page n

/-- The objects and the tree are as before. -/
structure Refused (k : Kernel) (s s' : Vmm) (f : ℕ → ℕ) : Prop where
  vmars : s'.vmars = s.vmars
  live : s'.run.live = s.run.live
  ok : s'.Ok k f

namespace Ok

theorem sameBut_initVmar : SameBut c v (v.initVmar c kind) := by
  constructor <;> intro z hz <;> first | rfl | exact Function.update_of_ne hz _ _

/-- `ALLOC` gives an object that is not handed out, or `nullptr`. -/
theorem allocVmar {o : Option ℕ} (h : s.Ok k f) (he : s.allocVmar k = some (o, s')) :
    s'.vmars = s.vmars ∧ s'.run.live = o.toList ++ s.run.live ∧
      s'.run.Good k.d k.entries k.alloc k.vmarType.allocMeta ∧
      SlabPage k.d k.entries s.virt s'.virt ∧
      ∀ x, o = some x → x ∈ k.d.range ∧ x ∉ s.run.live := by
  obtain ⟨⟨o', st⟩, e, he⟩ := Option.map_eq_some_iff.mp he
  obtain ⟨rfl, rfl⟩ := Prod.mk.inj he
  obtain ⟨hg, hnew⟩ := h.slabs.memAlloc k.alloc_ok k.defineAlloc.ok e
  exact ⟨rfl, rfl, hg, Slabs.memAlloc_virt e, fun x hx => (hnew x hx).symm⟩

/-- A new object is freed again. -/
theorem freeNew (h : s.Ok k f) (hnew : c ∈ k.d.range ∧ c ∉ s.run.live)
    (hg : r.Good k.d k.entries k.alloc k.vmarType.allocMeta) (hlive : r.live = c :: s.run.live)
    (hboot : r.slabs.virt.bootPages = s.virt.bootPages) (hs : SameBut c s.vmars v) :
    ∃ r', (Vmm.mk r v).freeVmar k c = some ⟨r', s.vmars⟩ ∧ r'.live = s.run.live ∧
      r'.slabs.virt = r.slabs.virt ∧ Ok k ⟨r', s.vmars⟩ f := by
  have hc : c ∈ r.live := by simp [hlive]
  obtain ⟨r', e, hg', hlive', hvirt⟩ := hg.memFree k.alloc_ok k.defineAlloc.ok hc
  have hl : r'.live = s.run.live := by rw [hlive', hlive, List.erase_cons_head]
  refine ⟨r', ?_, hl, hvirt, h.congr_run hg' hl (hvirt ▸ hboot)⟩
  rw [Vmm.freeVmar, if_pos hc, e, Option.map_some, hs.wipe_eq (h.dead c hnew.1 hnew.2)]

theorem initVmar (h : s.Ok k f) (hnew : c ∈ k.d.range ∧ c ∉ s.run.live) (kind : VmarKind) :
    VmarsOk k.roots (s.vmars.initVmar c kind) ∧
      ¬ (s.vmars.initVmar c kind).InTree k.roots c ∧
      (s.vmars.initVmar c kind).unmapped c = false ∧
      (s.vmars.initVmar c kind).initChildren c = s.vmars.initVmar c kind := by
  have hin := h.not_inTree hnew.1 hnew.2
  have hb := h.dead c hnew.1 hnew.2
  refine ⟨h.tree.outside sameBut_initVmar hin hb.parent hb.children hb.leftmost, hin,
    hb.unmapped, ?_⟩
  have hch : Function.update s.vmars.children c .nil = s.vmars.children :=
    Function.update_eq_self_iff.mpr hb.children.symm
  have hl : Function.update s.vmars.leftmost c none = s.vmars.leftmost :=
    Function.update_eq_self_iff.mpr hb.leftmost.symm
  simp only [initChildren, Vmars.initVmar, hch, hl]

/-- A vmar is linked: a new object, with a reference for the tree, or one in the data of the
kernel. -/
theorem link {g : ℕ → ℕ} (h : s.Ok k f) (hs : SameBut c s.vmars v) (hroot : c ∉ k.roots)
    (hp0 : s.vmars.parent c = none) (hlock : v.pageTableLock c = false)
    (hg : r.Good k.d k.entries k.alloc k.vmarType.allocMeta)
    (hmem : ∀ y, y ≠ c → (y ∈ r.live ↔ y ∈ s.run.live))
    (hboot : r.slabs.virt.bootPages = s.virt.bootPages) (hgf : ∀ y, y ≠ c → g y = f y)
    (hc : (c ∈ r.live ∧ v.refCount c = 1 + g c ∧ v.kind c ≠ .special) ∨
      (c ∉ k.d.range ∧ c ∉ r.live ∧ g c = 0 ∧ v.kind c = .special))
    (hl : Linked v v' p c page n) (hv' : VmarsOk k.roots v') : Ok k ⟨r, v'⟩ g := by
  have hparent : ∀ y, y ≠ c → v'.parent y = s.vmars.parent y := fun y hy => by
    rw [hl.parent, Function.update_of_ne hy, hs.parent y hy]
  have hkinds : ∀ y, y ≠ c → v'.kind y = s.vmars.kind y := fun y hy => by
    rw [hl.kind, hs.kind y hy]
  have hrefs : ∀ y, y ≠ c → v'.refCount y = s.vmars.refCount y := fun y hy => by
    rw [hl.refCount, hs.refCount y hy]
  have hrange : ∀ y, y ≠ c → v'.base y = s.vmars.base y ∧
      v'.pageCount y = s.vmars.pageCount y := fun y hy => by
    rw [hl.base, hl.pageCount, Function.update_of_ne hy, Function.update_of_ne hy, hs.base y hy,
      hs.pageCount y hy]
    exact ⟨rfl, rfl⟩
  have hpc : v'.parent c = some p := by rw [hl.parent, Function.update_self]
  have hne : ∀ root ∈ k.roots, root ≠ c := by
    rintro root hr rfl
    exact hroot hr
  refine ⟨hg, hv', ?_, ?_, fun y hy hyr => ?_, fun y hy hyl => ?_, fun y hy => ?_, fun y hy => ?_,
    fun y hy hp => ?_, fun y hy => ?_, fun y hy => ?_, fun y => ?_, fun m hm hlt => ?_⟩
  · obtain ⟨h1, h2⟩ := hrange _ (hne _ (Or.inl rfl))
    exact ⟨h1.trans h.kernelRegion.1, h2.trans h.kernelRegion.2⟩
  · obtain ⟨h1, h2⟩ := hrange _ (hne _ (Or.inr rfl))
    exact ⟨h1.trans h.userRegion.1, h2.trans h.userRegion.2⟩
  · by_cases hyc : y = c
    · rcases hc with hc | hc
      · exact absurd (hg.live_subset k.defineAlloc.ok hc.1) (hyc ▸ hy)
      · exact hyc ▸ (congrFun hl.kind c).trans hc.2.2.2
    · exact (hkinds y hyc).trans (h.static y hy hyr)
  · -- an object that is not handed out is in no list that changed
    have hyc : y ≠ c := by
      rintro rfl
      exact hc.elim (fun hc => hyl hc.1) fun hc => hc.1 hy
    have hyl' : y ∉ s.run.live := fun hc => hyl ((hmem y hyc).mpr hc)
    have hby := h.dead y hy hyl'
    have hyp : y ≠ p := by
      rintro rfl
      refine h.not_inTree hy hyl' ?_
      rcases (hv'.parent c y hpc).2 with hc | hc
      · exact Or.inl hc
      · exact Or.inr (hparent y hyc ▸ hc)
    obtain ⟨h1, h2⟩ := hrange y hyc
    obtain ⟨h3, h4⟩ := hl.children y hyp
    obtain ⟨h5, h6, h7, h8⟩ := hl.node y hyc (by rw [hs.parent y hyc, hby.parent]; simp)
    have hby' := hs.blank hby hyc
    exact ⟨(hrefs y hyc).trans hby.refCount, h1.trans hby.base, h2.trans hby.pageCount,
      (hparent y hyc).trans hby.parent, h5.trans hby'.gap, h6.trans hby'.maxGap,
      (hkinds y hyc).trans hby.kind, hl.unmapped ▸ hby'.unmapped, hl.locked ▸ hby'.locked,
      h7.trans hby'.prev, h8.trans hby'.next, h3.trans hby'.children, h4.trans hby'.leftmost,
      hl.pageTableLock ▸ hby'.pageTableLock⟩
  · change v'.refCount y = (if v'.parent y = none then 0 else 1) + _
    by_cases hyc : y = c
    · subst hyc
      rw [hl.refCount, hpc, if_neg (by simp)]
      exact (hc.resolve_right fun hc => hc.2.1 hy).2.1
    · rw [hrefs y hyc, hparent y hyc, hgf y hyc]
      exact h.refs y ((hmem y hyc).mp hy)
  · change 0 < v'.refCount y
    by_cases hyc : y = c
    · subst hyc
      have := (hc.resolve_right fun hc => hc.2.1 hy).2.1
      rw [hl.refCount]
      omega
    · rw [hrefs y hyc]
      exact h.used y ((hmem y hyc).mp hy)
  · change v'.parent y = none at hp
    have hyc : y ≠ c := by
      rintro rfl
      simp [hpc] at hp
    rw [hparent y hyc] at hp
    change v'.unmapped y = true
    rw [hl.unmapped, hs.unmapped y hyc]
    exact h.cut y ((hmem y hyc).mp hy) hp
  · change v'.kind y ≠ _
    by_cases hyc : y = c
    · subst hyc
      rw [hl.kind]
      exact (hc.resolve_right fun hc => hc.2.1 hy).2.2
    · rw [hkinds y hyc]
      exact h.kinds y ((hmem y hyc).mp hy)
  · by_cases hyc : y = c
    · subst hyc
      exact hc.elim (fun hc => hc.1) fun hc => absurd hc.2.2.1 hy
    · rw [hgf y hyc] at hy
      exact (hmem y hyc).mpr (h.held y hy)
  · change v'.pageTableLock y = false
    rw [hl.pageTableLock]
    by_cases hyc : y = c
    · exact hyc ▸ hlock
    · rw [hs.pageTableLock y hyc]
      exact h.unlocked y
  · rw [show (Vmm.mk r v').virt = r.slabs.virt from rfl, hboot] at hm
    obtain ⟨y, hky, hpy, hmy⟩ := h.boot m hm hlt
    have hyc : y ≠ c := by
      rintro rfl
      exact hpy hp0
    obtain ⟨h1, h2⟩ := hrange y hyc
    refine ⟨y, (hkinds y hyc).trans hky, fun hc => hpy ((hparent y hyc).symm.trans hc), ?_⟩
    rwa [pageNumbers_congr h1 h2]

/-- The new object is linked. -/
theorem linkNew (h : s.Ok k f) (hnew : c ∈ k.d.range ∧ c ∉ s.run.live)
    (hg : r.Good k.d k.entries k.alloc k.vmarType.allocMeta) (hlive : r.live = c :: s.run.live)
    (hboot : r.slabs.virt.bootPages = s.virt.bootPages) (hkind : kind ≠ .special)
    (hl : Linked (s.vmars.initVmar c kind) v' p c page n) (hv' : VmarsOk k.roots v') :
    Ok k ⟨r, v'⟩ (Function.update f c 1) := by
  have hb := h.dead c hnew.1 hnew.2
  refine h.link sameBut_initVmar (notMem_roots hnew.1) hb.parent hb.pageTableLock hg
    (fun y hy => ?_) hboot (fun y hy => Function.update_of_ne hy _ _) (Or.inl ⟨?_, ?_, ?_⟩) hl hv'
  · simp [hlive, hy]
  · simp [hlive]
  · simp [Vmars.initVmar]
  · simpa [Vmars.initVmar] using hkind

/-- The parent of a new object. -/
theorem known_initVmar (h : s.Ok k f) (hnew : c ∈ k.d.range ∧ c ∉ s.run.live) (kind : VmarKind)
    (hp : s.Known k p) : c ≠ p ∧ ((s.vmars.initVmar c kind).InTree k.roots p ∨
      (s.vmars.initVmar c kind).unmapped p = true) := by
  constructor
  · rintro rfl
    exact hp.elim (h.not_inTree hnew.1 hnew.2) hnew.2
  · by_cases hu : s.vmars.unmapped p = true
    · exact Or.inr hu
    · exact Or.inl (h.inTree hp (by simpa using hu))

theorem kind_initVmar (hne : c ≠ p) : (s.vmars.initVmar c kind).kind p = s.vmars.kind p :=
  Function.update_of_ne hne.symm _ _

theorem childrenOk_of_initVmar {xs : List ℕ} (h : (v.initVmar c kind).ChildrenOk p xs) :
    v.ChildrenOk p xs :=
  h.congr ⟨rfl, rfl⟩ (fun _ _ => ⟨rfl, rfl⟩) fun _ _ => ⟨rfl, rfl, rfl, rfl⟩

/-- `vmar_allocate` links a new region, or it has no effect on the tree. -/
theorem vmarAllocate (h : s.Ok k f) (hp : s.Known k p) (offset n : ℕ)
    (ha : ∃ o s1, s.allocVmar k = some (o, s1)) :
    ∃ res s', s.vmarAllocate k p offset n = some (res, s') ∧
      SlabPage k.d k.entries s.virt s'.virt ∧
      ((∃ e, res = .error e ∧ Refused k s s' f) ∨
        ∃ c, res = .ok c ∧ Allocated k s s' f p c .region offset n) := by
  have hself : SlabPage k.d k.entries s.virt s.virt := Or.inl rfl
  by_cases hkind : s.vmars.kind p = .region
  swap
  · exact ⟨_, s, by rw [Vmm.vmarAllocate, if_pos hkind], hself, Or.inl ⟨_, rfl, rfl, rfl, h⟩⟩
  by_cases hn : n = 0
  · exact ⟨_, s, by rw [Vmm.vmarAllocate, if_neg (by simp [hkind]), if_pos hn], hself,
      Or.inl ⟨_, rfl, rfl, rfl, h⟩⟩
  obtain ⟨o, s1, e1⟩ := ha
  obtain ⟨hv1, hlive1, hg1, hpage, hnew⟩ := h.allocVmar e1
  have hboot := hpage.bootPages
  rw [Vmm.vmarAllocate, if_neg (by simp [hkind]), if_neg hn, e1, Option.bind_eq_bind,
    Option.bind_some]
  cases o with
  | none =>
    refine ⟨_, s1, rfl, hpage, Or.inl ⟨_, rfl, hv1, hlive1, ?_⟩⟩
    change Ok k ⟨s1.run, s1.vmars⟩ f
    rw [hv1]
    exact h.congr_run hg1 hlive1 hboot
  | some c =>
    have hnew := hnew c rfl
    obtain ⟨htree, hin, hunm, hinit⟩ := h.initVmar hnew .region
    obtain ⟨hcp, hknown⟩ := h.known_initVmar hnew .region hp
    obtain ⟨xs, hok, hxs⟩ := htree.children p
    simp only [hv1, hinit, Option.bind_eq_bind]
    rcases htree.vmarAllocateStatic offset n hknown hin hcp hunm hok hxs with
      ⟨e, b, m, e2, -⟩ | ⟨page, v', e2, hk, hpos, hu, hw, hl, hv'⟩
    · obtain ⟨r', e3, hlive, hvirt, hok'⟩ := h.freeNew hnew hg1 hlive1 hboot
        (sameBut_initVmar.trans (sameBut_setRange (b := b) (n := m)))
      have hfail : (s1.setVmars ((s.vmars.initVmar c .region).setRange c b m)).failWith k c e =
          some ((.error e : Except TomatoErr ℕ), ⟨r', s.vmars⟩) := by
        rw [failWith, show (s1.setVmars _).freeVmar k c = _ from e3, Option.map_some]
      refine ⟨_, ⟨r', s.vmars⟩, by rw [e2, Option.bind_some]; exact hfail, ?_,
        Or.inl ⟨_, rfl, rfl, hlive, hok'⟩⟩
      rw [show (Vmm.mk r' s.vmars).virt = s1.virt from hvirt]
      exact hpage
    · exact ⟨_, s1.setVmars v', by rw [e2, Option.bind_some], hpage, Or.inr ⟨c, rfl, hnew, hlive1,
        h.linkNew hnew hg1 hlive1 hboot (by decide) hl hv', hkind, hu, hpos, xs, page,
        childrenOk_of_initVmar hok, hxs, hw, hl⟩⟩

/-- The pages of a range are reserved, and its tables are there, or nothing is reserved. -/
theorem virtReservePageTables {base : ℕ} {res : Except TomatoErr Unit}
    (hg : s.run.Good k.d k.entries k.alloc k.vmarType.allocMeta)
    (he : s.virtReservePageTables k base n = some (res, s')) :
    s'.vmars = s.vmars ∧ s'.run.live = s.run.live ∧ s'.virt.bootPages = s.virt.bootPages ∧
      s'.run.Good k.d k.entries k.alloc k.vmarType.allocMeta := by
  obtain ⟨⟨r, phys⟩, e, he⟩ := Option.map_eq_some_iff.mp he
  obtain ⟨rfl, rfl⟩ := Prod.mk.inj he
  refine ⟨rfl, rfl, rfl, SlabRun.good_exec k.alloc_ok k.defineAlloc.ok hg
    (c := .other (.reservePageTables base n)) ⟨hg.1.handedOver, by simp⟩ ?_⟩
  rw [SlabRun.exec, VirtState.exec, show Phys.virtReservePageTables k.d s.run.slabs.virt.pageTable
    s.run.slabs.virt.phys base n = _ from e]
  rfl

/-- `vmar_map` links a new mapping, or it has no effect on the tree. -/
theorem vmarMap (h : s.Ok k f) (hp : s.Known k p) (offset n : ℕ)
    (ha : ∃ o s1, s.allocVmar k = some (o, s1)) :
    ∃ (res : Except TomatoErr ℕ) (s' s1 : Vmm), s.vmarMap k p offset n = some (res, s') ∧
      SlabPage k.d k.entries s.virt s1.virt ∧
      s1.run.Good k.d k.entries k.alloc k.vmarType.allocMeta ∧
      ((∃ e, res = .error e ∧ Refused k s s' f ∧ (s'.virt = s1.virt ∨
          ∃ base s2, s1.virtReservePageTables k base n = some (.error e, s2) ∧
            s'.virt = s2.virt)) ∨
        ∃ c, res = .ok c ∧ Allocated k s s' f p c .mapping offset n ∧
          ∃ s2, s1.virtReservePageTables k (s'.vmars.base c) n = some (.ok (), s2) ∧
            s'.virt = s2.virt) := by
  have hself : SlabPage k.d k.entries s.virt s.virt := Or.inl rfl
  by_cases hkind : s.vmars.kind p = .region
  swap
  · exact ⟨_, s, s, by rw [Vmm.vmarMap, if_pos hkind], hself, h.slabs,
      Or.inl ⟨_, rfl, ⟨rfl, rfl, h⟩, Or.inl rfl⟩⟩
  by_cases hn : n = 0
  · exact ⟨_, s, s, by rw [Vmm.vmarMap, if_neg (by simp [hkind]), if_pos hn], hself, h.slabs,
      Or.inl ⟨_, rfl, ⟨rfl, rfl, h⟩, Or.inl rfl⟩⟩
  obtain ⟨o, s1, e1⟩ := ha
  obtain ⟨hv1, hlive1, hg1, hpage, hnew⟩ := h.allocVmar e1
  have hboot := hpage.bootPages
  rw [Vmm.vmarMap, if_neg (by simp [hkind]), if_neg hn, e1, Option.bind_eq_bind, Option.bind_some]
  cases o with
  | none =>
    refine ⟨_, s1, s1, rfl, hpage, hg1, Or.inl ⟨_, rfl, ⟨hv1, hlive1, ?_⟩, Or.inl rfl⟩⟩
    change Ok k ⟨s1.run, s1.vmars⟩ f
    rw [hv1]
    exact h.congr_run hg1 hlive1 hboot
  | some c =>
    have hnew := hnew c rfl
    obtain ⟨htree, hin, hunm, -⟩ := h.initVmar hnew .mapping
    obtain ⟨hcp, hknown⟩ := h.known_initVmar hnew .mapping hp
    obtain ⟨xs, hok, hxs⟩ := htree.children p
    have hset : ∀ b m, SameBut c s.vmars ((s.vmars.initVmar c .mapping).setRange c b m) :=
      fun b m => sameBut_initVmar.trans sameBut_setRange
    simp only [hv1, Option.bind_eq_bind]
    rcases htree.vmarFindPlace offset hknown ((kind_initVmar hcp).trans hkind) hin hcp
      hunm (Nat.pos_of_ne_zero hn) hok hxs with ⟨b, m, e2, -⟩ | ⟨page, v', e2, hu, hw, e3, hl, hv'⟩
    · obtain ⟨r', e3, hlive, hvirt, hok'⟩ := h.freeNew hnew hg1 hlive1 hboot (hset b m)
      have hfail : (s1.setVmars ((s.vmars.initVmar c .mapping).setRange c b m)).failWith k c
          .internalError = some ((.error .internalError : Except TomatoErr ℕ), ⟨r', s.vmars⟩) := by
        rw [failWith, show (s1.setVmars _).freeVmar k c = _ from e3, Option.map_some]
      refine ⟨_, ⟨r', s.vmars⟩, s1, by rw [e2]; exact hfail, hpage, hg1,
        Or.inl ⟨_, rfl, ⟨rfl, hlive, hok'⟩, Or.inl hvirt⟩⟩
    · obtain ⟨w, hw'⟩ : ∃ w, w = (s.vmars.initVmar c .mapping).setRange c (page * 4096) n := ⟨_, rfl⟩
      have hwc : w.base c = page * 4096 ∧ w.pageCount c = n := by
        simp [hw', Vmars.setRange]
      rw [e2, ← hw']
      rw [← hw'] at e3
      have hgood1 : (s1.setVmars w).virt.Good k.d k.entries := hg1.1.good
      obtain ⟨r2, phys, e4, -⟩ := VirtState.reserve_run hgood1 hg1.1.handedOver (page * 4096) n
      have e4' : (s1.setVmars w).virtReservePageTables k (page * 4096) n =
          some (r2, (s1.setVmars w).setVirt ((s1.setVmars w).virt.setPhys phys)) := by
        rw [Vmm.virtReservePageTables, e4, Option.map_some]
      obtain ⟨s2, hs2⟩ : ∃ s2, s2 = (s1.setVmars w).setVirt ((s1.setVmars w).virt.setPhys phys) :=
        ⟨_, rfl⟩
      rw [← hs2] at e4'
      obtain ⟨hv2, hlive2, hboot2, hg2⟩ := virtReservePageTables (s := s1.setVmars w) hg1 e4'
      have hboot2' : s2.virt.bootPages = s.virt.bootPages := hboot2.trans hboot
      have hlive2' : s2.run.live = c :: s.run.live := hlive2.trans hlive1
      simp only [hwc.1, hwc.2, e4', Option.bind_some]
      cases r2 with
      | error e =>
        obtain ⟨r', e5, hlive, hvirt, hok'⟩ := h.freeNew hnew hg2 hlive2' hboot2'
          (hw' ▸ hset (page * 4096) n)
        have hfail : s2.failWith k c e =
            some ((.error e : Except TomatoErr ℕ), ⟨r', s.vmars⟩) := by
          rw [failWith, show s2 = ⟨s2.run, w⟩ from congrArg (Vmm.mk s2.run) hv2, e5, Option.map_some]
        exact ⟨_, ⟨r', s.vmars⟩, s1.setVmars w, hfail, hpage, hg1,
          Or.inl ⟨_, rfl, ⟨rfl, hlive, hok'⟩, Or.inr ⟨_, s2, e4', hvirt⟩⟩⟩
      | ok u =>
        refine ⟨.ok c, s2.setVmars v', s1.setVmars w, ?_, hpage, hg1, Or.inr ⟨c, rfl, ⟨hnew, hlive2',
          ?_, hkind, hu, Nat.pos_of_ne_zero hn, xs, page, childrenOk_of_initVmar hok, hxs, hw, hl⟩,
          s2, ?_, rfl⟩⟩
        · simp only [hv2, setVmars, e3, Option.map_some]
        · exact h.linkNew hnew hg2 hlive2' hboot2' (by decide) hl hv'
        · change (s1.setVmars w).virtReservePageTables k (v'.base c) n = _
          rw [hl.base, Function.update_self]
          exact e4'

/-- A vmar in the data of the kernel that is not linked yet. -/
theorem static_iff (h : s.Ok k f) (hc : c ∉ k.d.range) (hk : s.vmars.kind c = .special) :
    c ∉ k.roots ∧ c ∉ s.run.live ∧ f c = 0 := by
  have hl : c ∉ s.run.live := fun hl => hc (h.live_subset hl)
  refine ⟨fun hr => ?_, hl, ?_⟩
  · have := (h.tree.root c hr).2
    simp [hk] at this
  · by_contra hne
    exact hl (h.held c hne)

/-- `vmar_link`. -/
theorem vmarLink (h : s.Ok k f) (hc : c ∉ k.d.range) (hk : s.vmars.kind c = .special)
    (hp : s.vmars.InTree k.roots p) (hp0 : s.vmars.parent c = none)
    (hu : s.vmars.unmapped c = false) (hn : 0 < s.vmars.pageCount c) (hd : 4096 ∣ s.vmars.base c)
    (he : s.vmars.vmarLink p c = some v') : (s.setVmars v').Ok k f := by
  obtain ⟨hroot, hlive, hf⟩ := h.static_iff hc hk
  obtain ⟨hl, hv'⟩ := h.tree.vmarLink hp (fun hin => hin.elim hroot fun hne => hne hp0) hu hn hd he
  exact h.link (SameBut.refl c _) hroot hp0 (h.unlocked c) h.slabs (fun _ _ => Iff.rfl) rfl
    (fun _ _ => rfl) (Or.inr ⟨hc, hlive, hf, hk⟩) hl hv'

/-- A vmar in the data of the kernel that is not linked gets a range. -/
theorem setRange {b m : ℕ} (h : s.Ok k f) (hc : c ∉ k.d.range) (hk : s.vmars.kind c = .special)
    (hp0 : s.vmars.parent c = none) : (s.setVmars (s.vmars.setRange c b m)).Ok k f := by
  obtain ⟨hroot, hlive, hf⟩ := h.static_iff hc hk
  have hne : ∀ root ∈ k.roots, root ≠ c := by
    rintro root hr rfl
    exact hroot hr
  have hs : SameBut c s.vmars (s.vmars.setRange c b m) := sameBut_setRange
  refine ⟨h.slabs, h.tree.setRange fun hin => hin.elim hroot fun hne => hne hp0, ?_, ?_, h.static,
    fun y hy hyl => hs.blank (h.dead y hy hyl) ?_, h.refs, h.used, h.cut, h.kinds, h.held,
    h.unlocked, fun n hn hlt => ?_⟩
  · exact ⟨(hs.base _ (hne _ (Or.inl rfl))).trans h.kernelRegion.1,
      (hs.pageCount _ (hne _ (Or.inl rfl))).trans h.kernelRegion.2⟩
  · exact ⟨(hs.base _ (hne _ (Or.inr rfl))).trans h.userRegion.1,
      (hs.pageCount _ (hne _ (Or.inr rfl))).trans h.userRegion.2⟩
  · rintro rfl
    exact hc hy
  · obtain ⟨y, hky, hpy, hny⟩ := h.boot n hn hlt
    have hyc : y ≠ c := by
      rintro rfl
      exact hpy hp0
    refine ⟨y, hky, hpy, ?_⟩
    rwa [setVmars, pageNumbers_congr (hs.base y hyc) (hs.pageCount y hyc)]

/-- `vmar_allocate_static`. -/
theorem vmarAllocateStatic {res : Except TomatoErr Unit} (h : s.Ok k f) (hc : c ∉ k.d.range)
    (hk : s.vmars.kind c = .special) (hp : s.Known k p) (hp0 : s.vmars.parent c = none)
    (hu : s.vmars.unmapped c = false)
    (he : s.vmars.vmarAllocateStatic p c offset n = some (res, v')) :
    (s.setVmars v').Ok k f := by
  obtain ⟨hroot, hlive, hf⟩ := h.static_iff hc hk
  have hin : ¬ s.vmars.InTree k.roots c := fun hin => hin.elim hroot fun hne => hne hp0
  have hcp : c ≠ p := by
    rintro rfl
    exact hp.elim hin hlive
  have hknown : s.vmars.InTree k.roots p ∨ s.vmars.unmapped p = true := by
    by_cases hup : s.vmars.unmapped p = true
    · exact Or.inr hup
    · exact Or.inl (h.inTree hp (by simpa using hup))
  obtain ⟨xs, hok, hxs⟩ := h.tree.children p
  rcases h.tree.vmarAllocateStatic offset n hknown hin hcp hu hok hxs with
    ⟨e, b, m, e', -⟩ | ⟨page, w, e', -, -, -, -, hl, hv'⟩
  · obtain ⟨-, rfl⟩ := Prod.mk.inj (Option.some.inj (e'.symm.trans he))
    exact h.setRange hc hk hp0
  · obtain ⟨-, rfl⟩ := Prod.mk.inj (Option.some.inj (e'.symm.trans he))
    exact h.link (SameBut.refl c _) hroot hp0 (h.unlocked c) h.slabs (fun _ _ => Iff.rfl) rfl
      (fun _ _ => rfl) (Or.inr ⟨hc, hlive, hf, hk⟩) hl hv'

end Ok

end Vmm

end Tomato
