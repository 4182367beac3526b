import Tomato.Mem.Vmar.Pages

/-!
# The pages of a new vmar

`vmar_allocate` and `vmar_map` always return. The pages of a new mapping are reserved and
their tables exist, and if a call fails the only pages that are used up are those of tables
and of slabs.
-/

namespace Tomato

open RbTree Ranges Forest Transition Blocks Vmars

namespace Vmm

variable {k : Kernel} {s s' : Vmm} {f : ℕ → ℕ} {p c n offset : ℕ}

/-- `ALLOC` returns, with an object or with `nullptr`. -/
theorem PagesOk.allocVmar (hpg : s.PagesOk k) (h : s.Ok k f) :
    ∃ o s', s.allocVmar k = some (o, s') ∧ (o = none → s' = s) := by
  obtain ⟨hp, lists, hi, hb⟩ := h.slabs
  rcases hi.memAlloc k.alloc_ok k.defineAlloc.ok hb hp with
    ⟨e, -⟩ | ⟨-, x, vs, e1, e2⟩ | ⟨x, st, lists', e, -⟩
  · exact ⟨none, s, by rw [Vmm.allocVmar, e]; rfl, fun _ => rfl⟩
  · obtain ⟨vs2, e3⟩ := VirtState.makeGlobal_slab h.good h.handedOver hpg.added e1
    simp [e2] at e3
  · exact ⟨some x, _, by rw [Vmm.allocVmar, e]; rfl, by simp⟩

/-- Pages that are available become committed, for tables and for slabs. -/
def Grown (a a' : Accounting) : Prop := ∃ c ≤ a.available, a' = Phys.tabled a c

theorem Grown.refl (a : Accounting) : Grown a a := ⟨0, Nat.zero_le _, rfl⟩

theorem Grown.trans {a a' a'' : Accounting} (h : Grown a a') (h' : Grown a' a'') :
    Grown a a'' := by
  obtain ⟨c, hc, rfl⟩ := h
  obtain ⟨c', hc', rfl⟩ := h'
  simp only [Phys.tabled] at hc' ⊢
  refine ⟨c + c', by omega, ?_⟩
  congr 1 <;> omega

/-- The pages of a new mapping are reserved, and other pages are used up only for tables and
slabs. -/
def Reserved (a a' : Accounting) (n : ℕ) : Prop :=
  ∃ c, c + n ≤ a.available ∧ a' = Phys.tabled { a with
    available := a.available - n
    reserved := a.reserved + n } c

theorem Grown.reserved {a a' a'' : Accounting} (h : Grown a a') (h' : Reserved a' a'' n) :
    Reserved a a'' n := by
  obtain ⟨c, hc, rfl⟩ := h
  obtain ⟨c', hc', rfl⟩ := h'
  simp only [Phys.tabled] at hc' ⊢
  refine ⟨c + c', by omega, ?_⟩
  congr 1 <;> simp only [] <;> omega

theorem PagesOk.quiet (hpg : s.PagesOk k) (h : s.Ok k f) {vs : VirtState}
    (hp : SlabPage k.d k.entries s.virt vs) :
    (∃ W, VirtState.PageGlobal k.d s.virt vs W) ∧ Grown s.virt.phys.acct vs.phys.acct ∧
      (s.setVirt vs).PagesOk k ∧ vs.Good k.d k.entries ∧ vs.handedOver = true := by
  obtain ⟨-, -, hW, hacct⟩ := VirtState.slabPage_run h.good h.handedOver hp
  exact ⟨hW, hacct, hpg.slabPage h (show (s.setVirt vs).vmars = s.vmars from rfl) hp⟩

/-- A refused call leaves the pages as they are. -/
theorem Refused.pages (hr : Refused k s s' f) (hpg : (s.setVirt s'.virt).PagesOk k) :
    s'.PagesOk k :=
  hpg.congr_vmars rfl (by rw [mapped, mapped, hr.vmars]; rfl)
    (fun x hp hk hl => by
      rw [hr.vmars] at hp hk hl ⊢
      exact ⟨hp, hk, hl, rfl⟩)
    fun x hk hp => by
      rw [hr.vmars]
      exact ⟨hk, hp, rfl⟩

/-- `vmar_allocate` returns. -/
theorem PagesOk.vmarAllocate (hpg : s.PagesOk k) (h : s.Ok k f) (hp : s.Known k p)
    (offset n : ℕ) : ∃ res s', s.vmarAllocate k p offset n = some (res, s') ∧ s'.PagesOk k ∧
      (∃ W, VirtState.PageGlobal k.d s.virt s'.virt W) ∧
      Grown s.virt.phys.acct s'.virt.phys.acct ∧ ((∃ e, res = .error e ∧ Refused k s s' f) ∨
        ∃ c, res = .ok c ∧ Allocated k s s' f p c .region offset n) := by
  obtain ⟨o, s1, e1, -⟩ := hpg.allocVmar h
  obtain ⟨res, s', e, hpage, hcase⟩ := h.vmarAllocate hp offset n ⟨o, s1, e1⟩
  obtain ⟨hW, hacct, hpg', -, -⟩ := hpg.quiet h hpage
  refine ⟨res, s', e, ?_, hW, hacct, hcase⟩
  rcases hcase with ⟨e, rfl, hr⟩ | ⟨c, rfl, ha⟩
  · exact hr.pages hpg'
  · obtain ⟨xs, page, -, -, -, hl⟩ := ha.place
    exact hpg'.link (s := s.setVirt s'.virt) Ok.sameBut_initVmar rfl hl (h.dead c ha.new.1 ha.new.2).parent
      (by simp [Vmars.initVmar])

/-- `vmar_map` returns. -/
theorem PagesOk.vmarMap (hpg : s.PagesOk k) (h : s.Ok k f) (hp : s.Known k p) (offset n : ℕ) :
    ∃ res s', s.vmarMap k p offset n = some (res, s') ∧ s'.PagesOk k ∧
      (∃ W, VirtState.PageGlobal k.d s.virt s'.virt W) ∧
      ((∃ e, res = .error e ∧ Refused k s s' f ∧ Grown s.virt.phys.acct s'.virt.phys.acct) ∨
        ∃ c, res = .ok c ∧ Allocated k s s' f p c .mapping offset n ∧
          Reserved s.virt.phys.acct s'.virt.phys.acct n) := by
  obtain ⟨o, s0, e0, -⟩ := hpg.allocVmar h
  obtain ⟨res, s', s1, e, hpage, hg1, hcase⟩ := h.vmarMap hp offset n ⟨o, s0, e0⟩
  obtain ⟨⟨W, hW⟩, hacct1, hpg1, hgood1, hl1⟩ := hpg.quiet h hpage
  have hreserve : ∀ {base : ℕ} {res : Except TomatoErr Unit} {s2 : Vmm},
      s1.virtReservePageTables k base n = some (res, s2) →
      VirtState.Changed k.d s1.virt s2.virt ∅ ∧
        (res = .ok () → Reserved s1.virt.phys.acct s2.virt.phys.acct n ∧
          ∀ m ∈ rangeOf base n, s2.virt.HasSlot k.d m) ∧
        ∀ e, res = .error e → Grown s1.virt.phys.acct s2.virt.phys.acct := by
    intro base res s2 e2
    obtain ⟨r, phys, er, hch, hok, herr⟩ := VirtState.reserve_run hgood1 hl1 base n
    rw [Vmm.virtReservePageTables, er, Option.map_some, Option.some.injEq, Prod.mk.injEq] at e2
    obtain ⟨rfl, rfl⟩ := e2
    exact ⟨hch, hok, fun e he => (herr e he).2⟩
  rcases hcase with ⟨err, rfl, hr, hvirt⟩ | ⟨c, rfl, ha, s2, e2, hvirt⟩
  · obtain ⟨hch, hacct⟩ : VirtState.Changed k.d s1.virt s'.virt ∅ ∧
        Grown s1.virt.phys.acct s'.virt.phys.acct := by
      rcases hvirt with hvirt | ⟨base, s2, e2, hvirt⟩
      · rw [hvirt]
        exact ⟨.refl _ _, .refl _⟩
      · obtain ⟨hch, -, herr⟩ := hreserve e2
        rw [hvirt]
        exact ⟨hch, herr _ rfl⟩
    have hlt : ∀ n < 2 ^ 36, s'.virt.flatMap k.d n = s1.virt.flatMap k.d n := fun n hn =>
      hch.leaf n hn (Set.notMem_empty n)
    refine ⟨_, s', e, ?_, ⟨W, hW.trans hch⟩, Or.inl ⟨err, rfl, hr, hacct1.trans hacct⟩⟩
    refine hpg1.congr_virt (s := s.setVirt s1.virt) hl1 hr.vmars hch (by simp)
      (fun n hn => Or.inl (hlt n hn)) ?_
    obtain ⟨a, -, hacct⟩ := hacct
    rw [hacct]
    rfl
  · obtain ⟨hch, hok2, -⟩ := hreserve e2
    obtain ⟨hres, hslot⟩ := hok2 rfl
    obtain ⟨xs, page, -, -, -, hl⟩ := ha.place
    refine ⟨_, s', e, ?_, ⟨W, hvirt.symm ▸ hW.trans hch⟩, Or.inr ⟨c, rfl, ha, ?_⟩⟩
    · refine hpg1.map (s := s.setVirt s1.virt) hl1 ha.ok Ok.sameBut_initVmar hl
        (h.dead c ha.new.1 ha.new.2).parent (by simp [Vmars.initVmar]) (hvirt.symm ▸ hch)
        (hvirt.symm ▸ hslot) ?_
      obtain ⟨a, -, hacct⟩ := hres
      rw [hvirt, hacct]
      rfl
    · rw [hvirt]
      exact hacct1.reserved hres

/-- `vmar_link`. -/
theorem PagesOk.vmarLink {v' : Vmars} (hpg : s.PagesOk k) (h : s.Ok k f) (hc : c ∉ k.d.range)
    (hk : s.vmars.kind c = .special) (hp : s.vmars.InTree k.roots p)
    (hp0 : s.vmars.parent c = none) (hu : s.vmars.unmapped c = false)
    (hn : 0 < s.vmars.pageCount c) (hd : 4096 ∣ s.vmars.base c)
    (he : s.vmars.vmarLink p c = some v') : (s.setVmars v').PagesOk k := by
  obtain ⟨hroot, -, -⟩ := h.static_iff hc hk
  obtain ⟨hl, -⟩ := h.tree.vmarLink hp (fun hin => hin.elim hroot fun hne => hne hp0) hu hn hd he
  exact hpg.link (SameBut.refl c _) (show (s.setVmars v').virt = s.virt from rfl) hl hp0
    (by simp [hk])

/-- A vmar in the data of the kernel that is not linked gets a range. -/
theorem PagesOk.setRange {b m : ℕ} (hpg : s.PagesOk k) (hp0 : s.vmars.parent c = none) :
    (s.setVmars (s.vmars.setRange c b m)).PagesOk k := by
  have hs : SameBut c s.vmars (s.vmars.setRange c b m) := sameBut_setRange
  have hpages : ∀ x, s.vmars.parent x ≠ none →
      (s.vmars.setRange c b m).pageNumbers x = s.vmars.pageNumbers x := by
    intro x hp
    have hx : x ≠ c := by
      rintro rfl
      exact hp hp0
    exact pageNumbers_congr (hs.base x hx) (hs.pageCount x hx)
  refine hpg.congr_vmars rfl ?_ (fun x hp hk hl => ⟨hp, hk, hl, hpages x hp⟩)
    fun x hk hp => ⟨hk, hp, hpages x hp⟩
  ext n
  refine exists_congr fun x => and_congr_right fun hp => ?_
  rw [setVmars, hpages x hp]
  rfl

/-- `vmar_allocate_static` returns. -/
theorem PagesOk.vmarAllocateStatic (hpg : s.PagesOk k) (h : s.Ok k f) (hc : c ∉ k.d.range)
    (hk : s.vmars.kind c = .special) (hp : s.Known k p) (hp0 : s.vmars.parent c = none)
    (hu : s.vmars.unmapped c = false) (offset n : ℕ) :
    ∃ res v', s.vmars.vmarAllocateStatic p c offset n = some (res, v') ∧
      (s.setVmars v').PagesOk k := by
  obtain ⟨hroot, hlive, -⟩ := h.static_iff hc hk
  have hin : ¬ s.vmars.InTree k.roots c := fun hin => hin.elim hroot fun hne => hne hp0
  have hcp : c ≠ p := by
    rintro rfl
    exact hp.elim hin hlive
  have hknown : s.vmars.InTree k.roots p ∨ s.vmars.unmapped p = true := by
    by_cases hup : s.vmars.unmapped p = true
    · exact Or.inr hup
    · exact Or.inl (h.inTree hp (by simpa using hup))
  obtain ⟨xs, hok, hxs⟩ := h.tree.children p
  rcases h.tree.vmarAllocateStatic offset n hknown hin hcp hu hok hxs with
    ⟨e, b, m, e', -⟩ | ⟨page, w, e', -, -, -, -, hl, -⟩
  · exact ⟨_, _, e', hpg.setRange hp0⟩
  · exact ⟨_, _, e', hpg.link (SameBut.refl c _) (show (s.setVmars w).virt = s.virt from rfl) hl
      hp0 (by simp [hk])⟩

end Vmm

end Tomato
