import Tomato.Mem.Vmar.PagesRun
import Tomato.Mem.Vmar.TreeRun

/-!
# The global bit in every reachable state

A page of a locked mapping is global, whether it was populated before the mapping was locked or
after it. A page of a mapping that is not locked is not.
-/

namespace Tomato

open RbTree Ranges Forest Transition Blocks Vmars

/-- An entry is for a global page, or is not present. -/
def IsGlobal (v : ℕ) : Prop := v &&& IA32_PG_P ≠ 0 → v &&& IA32_PG_G ≠ 0

theorem isGlobal_of_pageG {v : ℕ} : IsGlobal (v ||| IA32_PG_G) := fun _ h0 => by
  rw [Nat.and_or_distrib_right, Nat.or_eq_zero_iff] at h0
  exact absurd h0.2 (by decide)

theorem isGlobal_withGlobal (v : ℕ) : IsGlobal (Phys.withGlobal v) := by
  rw [Phys.withGlobal]
  split
  · exact isGlobal_of_pageG
  · rename_i hp
    exact fun hp' => absurd hp' hp

theorem isGlobal_populatedEntry (phys : ℕ) (user : Bool) :
    IsGlobal (Phys.populatedEntry phys true user) := by
  have hentry : ∃ v, Phys.populatedEntry phys true user = v ||| IA32_PG_G := by
    cases user
    · exact ⟨_, rfl⟩
    · exact ⟨phys ||| IA32_PG_P ||| IA32_PG_A ||| (IA32_PG_RW ||| IA32_PG_D) ||| IA32_PG_NX |||
        IA32_PG_U, by simp [Phys.populatedEntry, Nat.or_assoc, Nat.or_comm IA32_PG_G]⟩
  obtain ⟨v, hv⟩ := hentry
  exact hv ▸ isGlobal_of_pageG

namespace Vmm

/-- The present pages of the linked mappings that are locked are global. -/
def Pins (k : Kernel) (s : Vmm) : Prop :=
  ∀ x, s.LinkedMapping x → s.vmars.locked x = true →
    ∀ n ∈ s.vmars.pageNumbers x, IsGlobal (s.virt.flatMap k.d n)

/-- A present page of a mapping is global if and only if the mapping is locked, and `virt_free`
of the pages of a mapping that is not locked does not stop. -/
def GlobalFollowsLock (k : Kernel) (s : Vmm) : Prop :=
  ∀ x, s.LinkedMapping x →
    (∀ n ∈ s.vmars.pageNumbers x, s.virt.flatMap k.d n &&& IA32_PG_P ≠ 0 →
      (s.virt.flatMap k.d n &&& IA32_PG_G ≠ 0 ↔ s.vmars.locked x = true)) ∧
    (s.vmars.locked x = false →
      ∃ s', s.execVirt k (.free (s.vmars.base x) (s.vmars.pageCount x)) = some s')

/-- Entries were made global, and those of the mappings in `S` all are. -/
structure MadeGlobal (k : Kernel) (s s' : Vmm) (S : Set ℕ) : Prop where
  leaf : ∀ n < 2 ^ 36, s'.virt.flatMap k.d n = s.virt.flatMap k.d n ∨
    s'.virt.flatMap k.d n = Phys.withGlobal (s.virt.flatMap k.d n)
  global : ∀ y ∈ S, s.LinkedMapping y → ∀ n ∈ s.vmars.pageNumbers y,
    IsGlobal (s'.virt.flatMap k.d n)

variable {k : Kernel} {s s' s1 s2 : Vmm} {f : ℕ → ℕ} {x p n fuel m : ℕ} {rest : List ℕ}
  {lock : ℕ → Vmm → Option Vmm} {S T : Set ℕ}

theorem below_linked (hp : s.vmars.parent x = some p) {y : ℕ} (hy : y ∈ s.below x) :
    s.vmars.parent y ≠ none := by
  rcases Relation.ReflTransGen.cases_head hy with rfl | ⟨q, hq, -⟩
  · simp [hp]
  · simp [show s.vmars.parent y = some q from hq]

theorem LinkedMapping.congr (hp : s'.vmars.parent = s.vmars.parent)
    (hk : s'.vmars.kind = s.vmars.kind) : s'.LinkedMapping x ↔ s.LinkedMapping x := by
  rw [LinkedMapping, LinkedMapping, hp, hk]

namespace MadeGlobal

theorem refl (k : Kernel) (s : Vmm) : MadeGlobal k s s ∅ :=
  ⟨fun _ _ => Or.inl rfl, fun _ hy => hy.elim⟩

theorem trans (h : MadeGlobal k s s1 S) (h' : MadeGlobal k s1 s2 T)
    (hv : s1.vmars = { s.vmars with locked := s1.vmars.locked }) :
    MadeGlobal k s s2 (S ∪ T) where
  leaf := fun n hn => by
    rcases h.leaf n hn with e | e <;> rcases h'.leaf n hn with e' | e' <;> rw [e', e]
    · exact Or.inl rfl
    · exact Or.inr rfl
    · exact Or.inr rfl
    · exact Or.inr (Phys.withGlobal_withGlobal _)
  global := fun y hy hl n hn => by
    rcases hy with hy | hy
    · rcases h'.leaf n (lt_of_mem_pageNumbers hn) with e | e <;> rw [e]
      · exact h.global y hy hl n hn
      · exact isGlobal_withGlobal _
    · refine h'.global y hy ((LinkedMapping.congr ?_ ?_).mpr hl) n ?_
      · rw [hv]
      · rw [hv]
      · rw [hv]
        exact hn

end MadeGlobal

/-- The loop over the children of a region. -/
theorem lockChildren_global (hspec : LockSpec k fuel lock)
    (hglobal : ∀ x s f s', s.Ok k f → s.PagesOk k → s.vmars.InTree k.roots x →
      lock x s = some s' → MadeGlobal k s s' (s.below x))
    (h : s.Ok k f) (hpg : s.PagesOk k) {A : List ℕ} (hok : s.vmars.ChildrenOk p (A ++ rest))
    (hmem : ∀ z ∈ rest, s.vmars.parent z = some p)
    (he : lockChildren lock m rest.head? s = some s') :
    MadeGlobal k s s' (s.belowAll rest) := by
  induction rest generalizing s m A with
  | nil =>
    have hloop : lockChildren lock m none s = some s := by cases m <;> rfl
    obtain rfl := Option.some.inj (hloop.symm.trans he)
    have hempty : s.belowAll [] = ∅ := by simp [belowAll]
    exact hempty ▸ .refl k s
  | cons x rest ih =>
    have hx : s.vmars.parent x = some p := hmem x (by simp)
    have hxin : s.vmars.InTree k.roots x := Or.inr (by simp [hx])
    cases m with
    | zero => simp [lockChildren] at he
    | succ m =>
      rw [List.head?_cons, lockChildren, Option.bind_eq_bind] at he
      obtain ⟨s1, e1, he⟩ := Option.bind_eq_some_iff.mp he
      have h1 := (hspec x s f h hpg hxin).1 s1 e1
      have hg1 := hglobal x s f s1 h hpg hxin e1
      have hv := h1.vmars
      have hok1 : s1.vmars.ChildrenOk p ((A ++ [x]) ++ rest) := by
        rw [hv, List.append_assoc]
        exact hok.congr ⟨rfl, rfl⟩ (fun _ _ => ⟨rfl, rfl⟩) fun _ _ => ⟨rfl, rfl, rfl, rfl⟩
      have hnext : s1.vmars.next x = rest.head? := by
        rw [hv]
        exact hok.tree.links.next A x rest rfl
      rw [hnext] at he
      have hg2 := ih h1.ok h1.pages hok1 (fun z hz => by
        rw [hv]
        exact hmem z (List.mem_cons_of_mem x hz)) he
      have hall : s.belowAll (x :: rest) = s.below x ∪ s1.belowAll rest := by
        ext y
        simp only [belowAll, h1.below_eq, List.mem_cons, exists_eq_or_imp, Set.mem_union,
          Set.mem_ofPred_eq]
      exact hall ▸ hg1.trans hg2 hv

/-- The entries of a mapping are made global. -/
theorem lockMapping_global (h : s.Ok k f) (hpg : s.PagesOk k) (hx : s.vmars.InTree k.roots x)
    (hk : s.vmars.kind x = .mapping) (he : vmarLockInternal k (fuel + 1) x s = some s') :
    MadeGlobal k s s' {x} := by
  have hp : s.vmars.parent x ≠ none := by
    refine hx.resolve_left fun hr => ?_
    simp [(h.tree.root x hr).2] at hk
  have hkind : (s.setVmars (s.vmars.setLocked x)).vmars.kind x = .mapping := hk
  have h1 := h.setLocked hpg hx
  obtain ⟨v, ev, hb, hc, -, -, -, -⟩ := h1.ok.locked_exec x
  simp only [vmarLockInternal, hkind, ev, Option.bind_eq_bind, Option.bind_some, hb, hc] at he
  obtain ⟨s2, e2, he⟩ := Option.bind_eq_some_iff.mp he
  obtain rfl := Option.some.inj he
  rw [execVirt_setVmars, Option.map_eq_some_iff] at e2
  obtain ⟨s3, e3, rfl⟩ := e2
  obtain ⟨vs, e, rfl⟩ := Option.map_eq_some_iff.mp e3
  have hr := rangeOf_eq s.vmars x
  obtain ⟨vs', e', hch, hall, -⟩ := VirtState.makeGlobal_run h.good h.handedOver
    (show ∀ n ∈ rangeOf (s.vmars.base x) (s.vmars.pageCount x), _ from
      fun n hn => hpg.tables n (pageNumbers_subset hp hk (hr ▸ hn)))
  obtain rfl : vs' = vs := Option.some.inj (e'.symm.trans e)
  refine ⟨fun n hn => ?_, fun y hy _ n hn => ?_⟩
  · by_cases hw : n ∈ rangeOf (s.vmars.base x) (s.vmars.pageCount x)
    · exact Or.inr (hall n hw)
    · exact Or.inl (hch.leaf n hn hw)
  · obtain rfl : y = x := hy
    have hw : n ∈ rangeOf (s.vmars.base y) (s.vmars.pageCount y) := hr.symm ▸ hn
    exact (hall n hw).symm ▸ isGlobal_withGlobal _

/-- All that is below a vmar that is locked is made global. -/
theorem lockInternal_global (fuel x : ℕ) (s : Vmm) (f : ℕ → ℕ) (s' : Vmm) (h : s.Ok k f)
    (hpg : s.PagesOk k) (hx : s.vmars.InTree k.roots x)
    (he : vmarLockInternal k fuel x s = some s') : MadeGlobal k s s' (s.below x) := by
  induction fuel generalizing x s f s' with
  | zero => simp [vmarLockInternal] at he
  | succ fuel ih =>
    have h1 := h.setLocked hpg hx
    have hkind : (s.setVmars (s.vmars.setLocked x)).vmars.kind x = s.vmars.kind x := rfl
    -- a region is marked as locked, which is no mapping
    have hself : s.vmars.kind x ≠ .mapping → MadeGlobal k s (s.setVmars (s.vmars.setLocked x)) {x} :=
      fun hk => ⟨fun _ _ => Or.inl rfl, fun y hy hl => by
        obtain rfl : y = x := hy
        exact absurd hl.2 hk⟩
    cases hk : s.vmars.kind x with
    | region =>
      obtain ⟨rest, hok, hmem⟩ := h.tree.children x
      have hbelow : s.below x = {x} ∪ s.belowAll rest := by
        rw [Vmm.below_eq hmem, Set.union_comm]
      simp only [vmarLockInternal, hkind, hk] at he
      rw [show (s.setVmars (s.vmars.setLocked x)).vmars.leftmost x = rest.head?
        from hok.tree.links.leftmost] at he
      have hrest := lockChildren_global (A := []) (lockSpec k fuel) ih h1.ok h1.pages
        (hok.congr ⟨rfl, rfl⟩ (fun _ _ => ⟨rfl, rfl⟩) fun _ _ => ⟨rfl, rfl, rfl, rfl⟩)
        (fun z hz => (hmem z).mp hz) he
      exact hbelow ▸ (hself (by simp [hk])).trans hrest rfl
    | mapping =>
      rw [below_of_leaf (h.tree.leaf_of_kind (by simp [hk]))]
      exact lockMapping_global h hpg hx hk he
    | special =>
      simp only [vmarLockInternal, hkind, hk] at he
      obtain rfl := Option.some.inj he
      rw [below_of_leaf (h.tree.leaf_of_kind (by simp [hk]))]
      exact hself (by simp [hk])

namespace Pins

/-- The locked mappings were locked before, and no entry of theirs got lost. -/
theorem of_kept (h : s.Pins k)
    (hv : ∀ x, s'.LinkedMapping x → s'.vmars.locked x = true → s.LinkedMapping x ∧
      s.vmars.locked x = true ∧ s'.vmars.pageNumbers x = s.vmars.pageNumbers x ∧
      ∀ n ∈ s.vmars.pageNumbers x, s'.virt.flatMap k.d n = s.virt.flatMap k.d n ∨
        s'.virt.flatMap k.d n = Phys.withGlobal (s.virt.flatMap k.d n)) : s'.Pins k := by
  intro x hx hl n hn
  obtain ⟨h1, h2, h3, h4⟩ := hv x hx hl
  rw [h3] at hn
  rcases h4 n hn with e | e <;> rw [e]
  · exact h x h1 h2 n hn
  · exact isGlobal_withGlobal _

/-- The vmars are the same but for what locking does not look at. -/
theorem congr (h : s.Pins k) (hvirt : s'.virt = s.virt) (hp : s'.vmars.parent = s.vmars.parent)
    (hk : s'.vmars.kind = s.vmars.kind) (hl : s'.vmars.locked = s.vmars.locked)
    (hb : s'.vmars.base = s.vmars.base) (hc : s'.vmars.pageCount = s.vmars.pageCount) :
    s'.Pins k :=
  h.of_kept fun x hx hlx => ⟨(LinkedMapping.congr hp hk).mp hx, hl ▸ hlx,
    pageNumbers_congr (by rw [hb]) (by rw [hc]), fun n _ => Or.inl (by rw [hvirt])⟩

/-- A vmar is linked that is not locked. -/
theorem link {v : Vmars} {c page : ℕ} {W : Set ℕ} (h : s.Pins k) (hs : SameBut c s.vmars v)
    (hl : Linked v s'.vmars p c page n) (hc : v.locked c = false ∨ v.kind c ≠ .mapping)
    (hW : VirtState.PageGlobal k.d s.virt s'.virt W) : s'.Pins k := by
  refine h.of_kept fun x hx hlx => ?_
  have hxc : x ≠ c := by
    rintro rfl
    rcases hc with hc | hc
    · rw [hl.locked, hc] at hlx
      exact absurd hlx (by simp)
    · exact hc (congrFun hl.kind x ▸ hx.2)
  obtain ⟨h1, h2, h3, h4⟩ := linked_fields hs hl hxc
  exact ⟨⟨h1 ▸ hx.1, h2 ▸ hx.2⟩, h3 ▸ hlx, h4, fun n hn => hW.leaf (lt_of_mem_pageNumbers hn)⟩

/-- Pages of a mapping get frames, which are global if it is locked. -/
theorem populate {vs : VirtState} {base pageCount : ℕ} (h : s.Pins k) (hok : s.Ok k f)
    (hpg : s.PagesOk k) (hx : s.LinkedMapping x) (hlen : pageCount ≤ 2 ^ 36)
    (hsub : rangeOf base pageCount ⊆ s.vmars.pageNumbers x)
    (he : s.virt.exec k.d k.entries (.populate base pageCount (s.vmars.locked x)) = some vs) :
    (s.setVirt vs).Pins k := by
  obtain ⟨vs', e, -, -, hch, hpop, -⟩ := hpg.populate hok hx.1 hx.2 hlen hsub
  obtain rfl : vs' = vs := by
    obtain ⟨w, ew, hw⟩ := Option.map_eq_some_iff.mp e
    rw [← show w = vs' from congrArg Vmm.virt hw]
    exact Option.some.inj (ew.symm.trans he)
  intro y hy hly n hn
  change IsGlobal (vs'.flatMap k.d n)
  by_cases hw : n ∈ rangeOf base pageCount
  · obtain rfl : y = x := hok.eq_of_page hy.1 hx.1 (by simp [show s.vmars.kind y = _ from hy.2])
      (by simp [hx.2]) hn (hsub hw)
    rcases hpop n hw with ⟨-, e'⟩ | ⟨-, -, a, -, -, -, e'⟩
    · exact e' ▸ h y hy hly n hn
    · change s.vmars.locked y = true at hly
      rw [e', hly]
      exact isGlobal_populatedEntry _ _
  · rw [hch.leaf n (lt_of_mem_pageNumbers hn) hw]
    exact h y hy hly n hn

/-- A call that fails leaves the vmars alone. -/
theorem refused {W : Set ℕ} (h : s.Pins k) (hr : Refused k s s' f)
    (hW : VirtState.PageGlobal k.d s.virt s'.virt W) : s'.Pins k :=
  h.of_kept fun x hx hl => ⟨(LinkedMapping.congr (by rw [hr.vmars]) (by rw [hr.vmars])).mp hx,
    hr.vmars ▸ hl, pageNumbers_congr (by rw [hr.vmars]) (by rw [hr.vmars]),
    fun n hn => hW.leaf (lt_of_mem_pageNumbers hn)⟩

/-- A new vmar is not locked. -/
theorem allocated {c offset : ℕ} {kind : VmarKind} {W : Set ℕ} (h : s.Pins k) (hok : s.Ok k f)
    (ha : Allocated k s s' f p c kind offset n)
    (hW : VirtState.PageGlobal k.d s.virt s'.virt W) : s'.Pins k := by
  obtain ⟨xs, page, -, -, -, hl⟩ := ha.place
  exact h.link Ok.sameBut_initVmar hl (Or.inl (hok.dead c ha.new.1 ha.new.2).locked) hW

/-- All that is below a vmar is locked. -/
theorem locked (h : s.Pins k) (hl : Locked k s s' f S) (hg : MadeGlobal k s s' S) : s'.Pins k := by
  intro x hx hlx n hn
  have hx' : s.LinkedMapping x :=
    (LinkedMapping.congr (by rw [hl.vmars]) (by rw [hl.vmars])).mp hx
  rw [show s'.vmars.pageNumbers x = s.vmars.pageNumbers x
    from pageNumbers_congr (by rw [hl.vmars]) (by rw [hl.vmars])] at hn
  rcases (hl.locked x).mp hlx with hlx | hxS
  · rcases hg.leaf n (lt_of_mem_pageNumbers hn) with e | e <;> rw [e]
    · exact h x hx' hlx n hn
    · exact isGlobal_withGlobal _
  · exact hg.global x hxS hx' n hn

/-- What stays in the tree keeps its entries. -/
theorem detached (h : s.Pins k) (hok : s.Ok k f) (hS : ∀ y ∈ S, s.vmars.parent y ≠ none)
    (hd : Detached k s s' S T) : s'.Pins k := by
  refine h.of_kept fun x hx hl => ?_
  have hxS : x ∉ S := fun hc => hx.1 (hd.inside x hc)
  obtain ⟨h1, h2, h3, h4⟩ := hd.fields x (Or.inl hxS)
  have hx' : s.LinkedMapping x := ⟨hd.outside x hxS ▸ hx.1, h3 ▸ hx.2⟩
  refine ⟨hx', h4 ▸ hl, pageNumbers_congr h1 h2, fun n hn => Or.inl (hd.changed.leaf n
    (lt_of_mem_pageNumbers hn) ?_)⟩
  rintro ⟨y, hy, hky, hny⟩
  exact hxS (hok.eq_of_page hx'.1 (hS y hy) (by simp [hx'.2]) (by simp [hky]) hn hny ▸ hy)

/-- A reference is put. -/
theorem objectPut (h : s.Pins k) (hok : s.Ok k f) (hf : 0 < f x) (he : s.objectPut k x = some s') :
    s'.Pins k := by
  obtain ⟨hvirt, -, hpar, -, hother, -, hkeep⟩ := hok.put_fields hf he
  refine h.of_kept fun y hy hly => ?_
  have hp : s.vmars.parent y ≠ none := hpar y ▸ hy.1
  have hfields : s'.vmars.kind y = s.vmars.kind y ∧ s'.vmars.locked y = s.vmars.locked y ∧
      s'.vmars.pageNumbers y = s.vmars.pageNumbers y := by
    by_cases hyx : y = x
    · subst hyx
      rw [(hkeep hp).1]
      exact ⟨rfl, rfl, rfl⟩
    · obtain ⟨hs, -⟩ := hother y hyx
      exact ⟨hs.kind y hyx, hs.locked y hyx, pageNumbers_congr (hs.base y hyx) (hs.pageCount y hyx)⟩
  obtain ⟨h1, h2, h3⟩ := hfields
  exact ⟨⟨hp, h1 ▸ hy.2⟩, h2 ▸ hly, h3, fun n _ => Or.inl (by rw [hvirt])⟩

end Pins

end Vmm

open Vmm

namespace VmmRun

variable {k : Kernel} {r r' : VmmRun} {fuel : ℕ} {c : VmmCall}

/-- Every call keeps the pages of the locked mappings global. -/
theorem pins_exec (h : r.Good k) (hpin : r.vmm.Pins k) (hv : r.Valid k c)
    (he : r.exec k fuel c = some r') : r'.vmm.Pins k := by
  obtain ⟨hok, hpg⟩ := id h
  cases c with
  | link parent child =>
    obtain ⟨hp, hs, hn, hd⟩ := hv
    obtain ⟨v, e, rfl⟩ := Option.map_eq_some_iff.mp he
    obtain ⟨hc, -, hp0, hu⟩ := id hs
    have hk := h.kind_static hs
    obtain ⟨hroot, -, -⟩ := hok.static_iff hc hk
    obtain ⟨hl, -⟩ := hok.tree.vmarLink hp (fun hin => hin.elim hroot fun hne => hne hp0) hu hn hd e
    exact hpin.link (SameBut.refl child _) hl (Or.inr (by simp [hk])) (.refl _)
  | allocateStatic parent child offset n =>
    obtain ⟨hp, hs⟩ := hv
    obtain ⟨⟨res, v⟩, e, rfl⟩ := Option.map_eq_some_iff.mp he
    obtain ⟨hc, -, hp0, hu⟩ := id hs
    have hk := h.kind_static hs
    obtain ⟨hroot, hlive, -⟩ := hok.static_iff hc hk
    have hin : ¬ r.vmm.vmars.InTree k.roots child := fun hin => hin.elim hroot fun hne => hne hp0
    have hcp : child ≠ parent := by
      rintro rfl
      exact hp.elim hin hlive
    have hknown : r.vmm.vmars.InTree k.roots parent ∨ r.vmm.vmars.unmapped parent = true := by
      by_cases hup : r.vmm.vmars.unmapped parent = true
      · exact Or.inr hup
      · exact Or.inl (hok.inTree hp (by simpa using hup))
    obtain ⟨xs, hch, hxs⟩ := hok.tree.children parent
    rcases hok.tree.vmarAllocateStatic offset n hknown hin hcp hu hch hxs with
      ⟨err, b, m, e', -⟩ | ⟨page, w, e', -, -, -, -, hl, -⟩
    · obtain ⟨rfl, rfl⟩ := Prod.mk.inj (Option.some.inj (e'.symm.trans e))
      refine hpin.of_kept fun x hx hlx => ?_
      have hxc : x ≠ child := by
        rintro rfl
        exact hx.1 hp0
      exact ⟨hx, hlx, pageNumbers_congr (sameBut_setRange.base x hxc)
        (sameBut_setRange.pageCount x hxc), fun _ _ => Or.inl rfl⟩
    · obtain ⟨rfl, rfl⟩ := Prod.mk.inj (Option.some.inj (e'.symm.trans e))
      exact hpin.link (SameBut.refl child _) hl (Or.inr (by simp [hk])) (.refl _)
  | allocate parent offset n =>
    obtain ⟨⟨res, s⟩, e, rfl⟩ := Option.map_eq_some_iff.mp he
    obtain ⟨res', s', e', -, ⟨W, hW⟩, -, hcase⟩ := hpg.vmarAllocate hok hv offset n
    obtain ⟨rfl, rfl⟩ := Prod.mk.inj (Option.some.inj (e'.symm.trans e))
    rcases hcase with ⟨e, rfl, hr⟩ | ⟨x, rfl, ha⟩
    · exact hpin.refused hr hW
    · exact hpin.allocated hok ha hW
  | map parent offset n =>
    obtain ⟨⟨res, s⟩, e, rfl⟩ := Option.map_eq_some_iff.mp he
    obtain ⟨res', s', e', -, ⟨W, hW⟩, hcase⟩ := hpg.vmarMap hok hv offset n
    obtain ⟨rfl, rfl⟩ := Prod.mk.inj (Option.some.inj (e'.symm.trans e))
    rcases hcase with ⟨e, rfl, hr, -⟩ | ⟨x, rfl, ha, -⟩
    · exact hpin.refused hr hW
    · exact hpin.allocated hok ha hW
  | populate x =>
    obtain ⟨⟨res, s⟩, e, rfl⟩ := Option.map_eq_some_iff.mp he
    obtain ⟨res', s', e', -, -, hcase⟩ := hok.vmarPopulate hpg hv
    obtain ⟨rfl, rfl⟩ := Prod.mk.inj (Option.some.inj (e'.symm.trans e))
    rcases hcase with ⟨e, -, rfl⟩ | ⟨vs, -, rfl, hp, hk, hvs⟩
    · exact hpin
    · have hlen := hok.pageCount_le hp
      exact hpin.populate hok hpg ⟨hp, hk⟩ (by omega) (rangeOf_eq r.vmm.vmars x).le hvs
  | lock x =>
    obtain ⟨s, e, rfl⟩ := Option.map_eq_some_iff.mp he
    have hl := (hok.vmarLock hpg hv).1 fuel s e
    rw [Vmm.vmarLock] at e
    split at e
    · simp at e
    · rename_i hu
      exact hpin.locked hl (lockInternal_global fuel x _ _ s hok hpg
        (hok.inTree hv (by simpa using hu)) e)
  | unmap x =>
    obtain ⟨s, e, rfl⟩ := Option.map_eq_some_iff.mp he
    rcases (hok.vmarUnmap hpg).1 fuel s e with ⟨-, rfl⟩ | ⟨p, hp, -, -, -, hd⟩
    · exact hpin
    · exact hpin.detached hok (fun y hy => below_linked hp hy) hd
  | findMapping root address =>
    obtain ⟨⟨o, v⟩, e, rfl⟩ := Option.map_eq_some_iff.mp he
    rcases hok.vmarFindMapping_eq hv e with ⟨rfl, rfl⟩ | ⟨m, rfl, rfl, hlive⟩
    · exact hpin
    · exact hpin.congr rfl rfl rfl rfl rfl rfl
  | get x =>
    obtain rfl := Option.some.inj he
    exact hpin.congr rfl rfl rfl rfl rfl rfl
  | put x =>
    obtain ⟨s, e, rfl⟩ := Option.map_eq_some_iff.mp he
    exact hpin.objectPut hok hv e
  | pageFault address errorCode =>
    simp only [exec] at he
    split at he
    · rename_i err s e
      obtain rfl := Option.some.inj he
      obtain ⟨n, res, s', hrun, hcase⟩ := hok.virtPageFaultHandler hpg address errorCode
      have heq := (Vmm.virtPageFaultHandler_mono e (Nat.le_max_left fuel (n + 1))).symm.trans
        (hrun _ (lt_of_lt_of_le (Nat.lt_succ_self n) (Nat.le_max_right fuel (n + 1))))
      obtain ⟨rfl, rfl⟩ := Prod.mk.inj (Option.some.inj heq)
      rcases hcase with ⟨m, vs, -, rfl, -, -, hd⟩ | ⟨e, -, rfl⟩ | ⟨hc, -⟩
      · obtain ⟨hp, -⟩ := hok.linked_of_below hd.below (hok.kind_faultRoot address errorCode) hd.kind
        refine hpin.populate hok hpg ⟨hp, hd.kind⟩ (by norm_num) ?_ hd.exec
        rw [rangeOf_one, Set.singleton_subset_iff]
        exact pageNumber_mem ((hok.contains_iff hp).mp hd.contains)
      · exact hpin
      · simp at hc
    · simp at he
  | newSlab =>
    obtain ⟨vs, e, rfl⟩ := Option.map_eq_some_iff.mp he
    obtain ⟨⟨W, hW⟩, -⟩ := hpg.quiet hok (newSlab_slabPage e)
    exact hpin.of_kept fun x hx hlx => ⟨hx, hlx, rfl, fun n hn => hW.leaf (lt_of_mem_pageNumbers hn)⟩
  | client c =>
    obtain ⟨s, e, rfl⟩ := Option.map_eq_some_iff.mp he
    obtain ⟨hc, hvalid⟩ := hv
    obtain ⟨-, hvm, -, hexec⟩ := hok.execVirt hvalid e
    obtain ⟨hch, -⟩ := VirtState.client_run hok.good hok.handedOver hc hvalid.1 hexec
    exact hpin.of_kept fun x hx hlx => ⟨(LinkedMapping.congr (by rw [hvm]) (by rw [hvm])).mp hx,
      hvm ▸ hlx, pageNumbers_congr (by rw [hvm]) (by rw [hvm]),
      fun n hn => Or.inl (hch.leaf n (lt_of_mem_pageNumbers hn) (Set.notMem_empty n))⟩

theorem pins_of_reachable (h : Reachable (Initial k) (Step k) r) : r.vmm.Pins k := by
  induction h with
  | start h0 =>
    intro x hx
    have hok := (good_of_reachable (.start h0)).ok
    have hlive := hok.mem_live hx.1 (by simp [hx.2])
    simp [h0.live] at hlive
  | next h hst ih =>
    obtain ⟨fuel, c, hv, he⟩ := hst
    exact pins_exec (good_of_reachable h) ih hv he

end VmmRun

variable {k : Kernel} {r : VmmRun}

/-- A present page of a mapping is global if and only if the mapping is locked, and the pages of
a mapping that is not locked can be freed. -/
theorem global_of_reachable (h : Reachable (VmmRun.Initial k) (VmmRun.Step k) r) :
    r.vmm.GlobalFollowsLock k := by
  obtain ⟨hok, hpg⟩ := VmmRun.good_of_reachable h
  refine fun x hx => ⟨fun n hn hp => ⟨fun hg => ?_, fun hl => ?_⟩, fun hl => ?_⟩
  · by_contra hl
    exact hg (hpg.pinned x hx.1 hx.2 (by simpa using hl) n hn)
  · exact VmmRun.pins_of_reachable h x hx hl n hn hp
  · obtain ⟨vs, e, -⟩ := hpg.free hok hx.1 hx.2 hl
    exact ⟨_, e⟩

theorem global_smallKernel :
    ∃ r, VmmRun.Initial smallKernel r ∧ r.vmm.GlobalFollowsLock smallKernel := by
  obtain ⟨r, h⟩ := exists_initial
  exact ⟨r, h, global_of_reachable (.start h)⟩

end Tomato
