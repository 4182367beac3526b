import Tomato.Mem.Vmar.TreeRun

/-!
# Unmapping in every reachable state

`vmar_unmap` goes through all that is below a vmar once. It leaves the other vmars as they are,
and takes back what `vmar_allocate` or `vmar_map` did.
-/

namespace Tomato

open RbTree Ranges Forest Transition Vmars

namespace Vmm

section

variable (k : Kernel)

/-- The vmars that the loop of `vmar_unmap_internal` over the children goes through. -/
def childVisits (unmap : ℕ → Vmm → Option Vmm) (visits : ℕ → Vmm → List ℕ) :
    ℕ → Option ℕ → Vmm → List ℕ
  | n + 1, some child, s =>
    visits child s ++ ((unmap child s).bind fun s => s.objectPut k child).elim []
      (childVisits unmap visits n (s.vmars.next child))
  | 0, some _, _ => []
  | _, none, _ => []

/-- The vmars that `vmar_unmap_internal` is called for. -/
def unmapVisits : ℕ → ℕ → Vmm → List ℕ
  | 0, _, _ => []
  | fuel + 1, vmar, s =>
    vmar :: if s.vmars.kind vmar = .region then
      childVisits k (vmarUnmapInternal k fuel) (unmapVisits fuel) fuel (s.vmars.leftmost vmar) s
    else []

/-- The list has what is below the vmar, each once. -/
def Visits (s : Vmm) (x : ℕ) (l : List ℕ) : Prop := l.Nodup ∧ ∀ y, y ∈ l ↔ y ∈ s.below x

end

variable {k : Kernel} {s s' s1 s2 : Vmm} {f : ℕ → ℕ} {x p fuel m : ℕ} {rest : List ℕ}
  {unmap : ℕ → Vmm → Option Vmm} {visits : ℕ → Vmm → List ℕ}

/-- The loop goes through what is below the children. -/
theorem childVisits_spec (hspec : UnmapSpec k fuel unmap)
    (hvisits : ∀ x s f s', s.Ok k f → s.PagesOk k → unmap x s = some s' → s.Visits x (visits x s))
    (h : s.Ok k f) (hpg : s.PagesOk k) (hok : s.vmars.ChildrenOk p rest)
    (hmem : ∀ z, z ∈ rest ↔ s.vmars.parent z = some p)
    (he : unmapChildren k unmap m rest.head? s = some s') :
    (childVisits k unmap visits m rest.head? s).Nodup ∧
      ∀ y, y ∈ childVisits k unmap visits m rest.head? s ↔ y ∈ s.belowAll rest := by
  induction rest generalizing s m with
  | nil =>
    have hnil : childVisits k unmap visits m none s = [] := by cases m <;> rfl
    rw [List.head?_nil, hnil]
    simp [belowAll]
  | cons x rest ih =>
    have hx : s.vmars.parent x = some p := (hmem x).mp (by simp)
    have hnext : s.vmars.next x = rest.head? := hok.tree.links.next [] x rest rfl
    cases m with
    | zero => simp [unmapChildren] at he
    | succ m =>
      simp only [List.head?_cons, unmapChildren, hnext, Option.bind_eq_bind] at he
      split at he
      · simp at he
      split at he
      · simp at he
      obtain ⟨s1, e1, he⟩ := Option.bind_eq_some_iff.mp he
      obtain ⟨s2, e2, hok2, hpg2, hd2, -⟩ := unmapChild_spec hspec h hpg hx e1
      rw [e2, Option.bind_some] at he
      obtain ⟨hrest, hmem2⟩ := h.siblings hd2 hok2 hx hok hmem
      obtain ⟨hnd, hin⟩ := ih hok2 hpg2 hrest hmem2 he
      obtain ⟨hndx, hinx⟩ := hvisits x s f s1 h hpg e1
      have hall := belowAll_cons h hd2 hx fun z hz => (hmem2 z).mp hz
      have hloop : childVisits k unmap visits (m + 1) (some x) s =
          visits x s ++ childVisits k unmap visits m rest.head? s2 := by
        simp only [childVisits, e1, Option.bind_some, e2, Option.elim_some, hnext]
      rw [List.head?_cons, hloop, hall]
      refine ⟨List.nodup_append.mpr ⟨hndx, hnd, ?_⟩, fun y => ?_⟩
      · rintro y hy z hz rfl
        obtain ⟨c, hc, hyc⟩ := (hin y).mp hz
        rw [below_detached hd2 below_closed (hd2.parent_some ((hmem2 c).mp hc)).1] at hyc
        exact hyc.2 ((hinx y).mp hy)
      · rw [List.mem_append, hinx, hin, Set.mem_union]

/-- `vmar_unmap_internal` is called once for each vmar below the first one. -/
theorem unmapVisits_spec (fuel x : ℕ) (s : Vmm) (f : ℕ → ℕ) (s' : Vmm) (h : s.Ok k f)
    (hpg : s.PagesOk k) (he : vmarUnmapInternal k fuel x s = some s') :
    s.Visits x (unmapVisits k fuel x s) := by
  induction fuel generalizing x s f s' with
  | zero => simp [vmarUnmapInternal] at he
  | succ fuel ih =>
    obtain ⟨p, hun⟩ := (unmapSpec k (fuel + 1) x s f h hpg).1 s' he
    obtain ⟨rest, hok, hmem⟩ := h.tree.children x
    rw [unmapVisits]
    by_cases hk : s.vmars.kind x = .region
    · obtain ⟨hl, -⟩ := hun.clear x (.refl x)
      have hkp := (h.tree.parent x p hun.parent).1
      have hunm : s.vmars.unmapped x = false := by
        by_contra hne
        exact h.tree.unmapped x (by simpa using hne) (Or.inr (by simp [hun.parent]))
      simp only [vmarUnmapInternal, hunm, hl, hun.parent, hkp, hk, Option.bind_eq_bind,
        Bool.false_eq_true, if_false, Option.bind_some, ne_eq, not_true_eq_false] at he
      obtain ⟨s1, e1, -⟩ := Option.bind_eq_some_iff.mp he
      rw [show s.vmars.leftmost x = rest.head? from hok.tree.links.leftmost] at e1 ⊢
      obtain ⟨hnd, hin⟩ := childVisits_spec (unmapSpec k fuel) ih h hpg hok hmem e1
      have hnot : x ∉ s.belowAll rest := by
        rintro ⟨c, hc, hxc⟩
        exact (h.notMem_below ((hmem c).mp hc)).1 hxc
      rw [if_pos hk]
      refine ⟨List.nodup_cons.mpr ⟨fun hx => hnot ((hin x).mp hx), hnd⟩, fun y => ?_⟩
      rw [List.mem_cons, hin, below_eq hmem, Set.mem_union, Set.mem_singleton_iff, or_comm]
    · rw [if_neg hk]
      refine ⟨List.nodup_singleton x, fun y => ?_⟩
      rw [below_of_leaf (h.tree.leaf_of_kind hk), Set.mem_singleton_iff, List.mem_singleton]

/-- The pages of a region that no child has. -/
def freePages (s : Vmm) (parent : ℕ) : Set ℕ :=
  {page | page ∈ s.vmars.pages parent ∧ ∀ x, s.vmars.parent x = some parent → page ∉ s.vmars.pages x}

/-- The vmar `x` was unmapped from the region `p`. -/
structure Unmaps (k : Kernel) (s s' : Vmm) (x p : ℕ) : Prop where
  parent : s.vmars.parent x = some p
  below : ∀ y ∈ s.below x, s'.vmars.parent y = none ∧ s'.vmars.children y = .nil ∧
    (y ∈ s'.run.live → s'.vmars.unmapped y = true)
  leaves : ∀ y ∈ s.below x, s.vmars.kind y = .mapping →
    ∀ n ∈ s.vmars.pageNumbers y, s'.virt.flatMap k.d n = 0
  siblings : ∃ A B, s.vmars.Arranged p (A ++ x :: B) ∧ s'.vmars.Arranged p (A ++ B)
  free : s'.freePages p = s.freePages p ∪ s.vmars.pages x
  kept : ∀ y ∉ s.below x, s'.vmars.parent y = s.vmars.parent y ∧
    s'.vmars.base y = s.vmars.base y ∧ s'.vmars.pageCount y = s.vmars.pageCount y ∧
    s'.vmars.kind y = s.vmars.kind y ∧ s'.vmars.locked y = s.vmars.locked y ∧
    s'.vmars.unmapped y = s.vmars.unmapped y ∧ s'.vmars.refCount y = s.vmars.refCount y
  trees : ∀ r ∉ s.below x, r ≠ p → s'.vmars.children r = s.vmars.children r ∧
    s'.vmars.leftmost r = s.vmars.leftmost r
  nodes : ∀ z ∉ s.below x, s.vmars.parent z ≠ some p → s'.vmars.gap z = s.vmars.gap z ∧
    s'.vmars.maxGap z = s.vmars.maxGap z ∧ s'.vmars.prev z = s.vmars.prev z ∧
    s'.vmars.next z = s.vmars.next z
  entries : ∀ n < 2 ^ 36, n ∉ s.pagesOf (s.below x) →
    s'.virt.flatMap k.d n = s.virt.flatMap k.d n

/-- The children of a region, the gaps and the free pages are those from before. -/
structure Undone (s s' : Vmm) (p : ℕ) : Prop where
  toList : (s'.vmars.children p).toList = (s.vmars.children p).toList
  gap : ∀ x, s.vmars.parent x = some p → s'.vmars.gap x = s.vmars.gap x
  free : s'.freePages p = s.freePages p

theorem Detached.unmaps (hd : Detached k s s' (s.below x) {p}) (h : s.Ok k f) (h' : s'.Ok k f)
    (hp : s.vmars.parent x = some p) : Unmaps k s s' x p := by
  obtain ⟨hpx, hsib⟩ := h.notMem_below hp
  obtain ⟨xs, hok, hmem⟩ := h.tree.children p
  obtain ⟨ys, hok', hmem'⟩ := h'.tree.children p
  obtain ⟨A, B, rfl⟩ := List.append_of_mem ((hmem x).mpr hp)
  have hpages : ∀ y ∉ s.below x, s'.vmars.vmarFirstPage y = s.vmars.vmarFirstPage y ∧
      s'.vmars.pageEnd y = s.vmars.pageEnd y := fun y hy => by
    obtain ⟨h1, h2, -⟩ := hd.fields y (Or.inl hy)
    rw [pageEnd, pageEnd, vmarFirstPage, vmarFirstPage, h1, h2]
    exact ⟨rfl, rfl⟩
  have hnd := List.nodup_middle.mp hok.tree.nodup
  have hne : ∀ y ∈ A ++ B, y ∉ s.below x := fun y hy hb => by
    have hyp : y ∈ A ++ x :: B := List.mem_append.mpr
      ((List.mem_append.mp hy).imp_right (List.mem_cons_of_mem x))
    exact (List.nodup_cons.mp hnd).1 (hsib y hb ((hmem y).mp hyp) ▸ hy)
  have hin : ∀ y, y ∈ A ++ B ↔ s'.vmars.parent y = some p := fun y => by
    constructor
    · intro hy
      rw [hd.outside y (hne y hy)]
      exact (hmem y).mp (List.mem_append.mpr
        ((List.mem_append.mp hy).imp_right (List.mem_cons_of_mem x)))
    · intro hy
      obtain ⟨h1, h2⟩ := hd.parent_some hy
      have hyx : y ≠ x := fun he => h1 (he ▸ .refl x)
      have := (hmem y).mpr h2
      simp only [List.mem_append, List.mem_cons, hyx, false_or] at this ⊢
      exact this
  -- the list of the siblings is the only one in order
  have hpack : Packed s'.vmars.vmarFirstPage s'.vmars.pageEnd (s.vmars.vmarFirstPage p)
      (s.vmars.pageEnd p) (A ++ B) :=
    hok.packed.remove.congr (fun y hy => (hpages y (hne y hy)).1) fun y hy => (hpages y (hne y hy)).2
  obtain rfl : ys = A ++ B :=
    hok'.packed.eq_of_mem_iff hpack fun y => (hmem' y).trans (hin y).symm
  have hout : ∀ y ∈ s.below x, ¬ s'.vmars.InTree k.roots y := by
    rintro y hy (hr | hne)
    · rcases Relation.ReflTransGen.cases_head hy with rfl | ⟨q, hq, -⟩
      · exact absurd ((h.tree.root y hr).1.symm.trans hp) (by simp)
      · exact absurd ((h.tree.root y hr).1.symm.trans hq) (by simp)
    · exact hne (hd.inside y hy)
  refine ⟨hp, fun y hy => ⟨hd.inside y hy, ?_, fun hl => h'.cut y hl (hd.inside y hy)⟩,
    fun y hy hk n hn => hd.zero n ⟨y, hy, hk, hn⟩,
    ⟨A, B, hok.arranged hmem, hok'.arranged hmem'⟩, ?_, fun y hy => ?_,
    fun r hr hrp => hd.children r hr hrp, fun z hz hzp => hd.node z hz ?_, fun n hn hnot =>
      hd.changed.leaf n hn hnot⟩
  · exact (h'.tree.children_eq_nil (h'.tree.leaf (hout y hy))).1
  · have hfree : ∀ (s : Vmm) zs, (∀ z, z ∈ zs ↔ s.vmars.parent z = some p) → s.freePages p =
        free s.vmars.vmarFirstPage s.vmars.pageEnd (s.vmars.vmarFirstPage p) (s.vmars.pageEnd p)
          zs := fun s zs hzs => by
      ext q
      simp only [freePages, free, pages, ← hzs, Set.mem_setOf_eq]
    rw [hfree s' _ hmem', hfree s _ hmem, pages, ← free_remove hok.packed, (hpages p hpx).1,
      (hpages p hpx).2]
    ext q
    simp only [free, Set.mem_setOf_eq]
    refine and_congr_right fun _ => forall_congr' fun y => forall_congr' fun hy => ?_
    rw [(hpages y (hne y hy)).1, (hpages y (hne y hy)).2]
  · obtain ⟨h1, h2, h3, h4⟩ := hd.fields y (Or.inl hy)
    obtain ⟨h5, h6⟩ := hd.same y hy
    exact ⟨hd.outside y hy, h1, h2, h3, h4, h5, h6⟩
  · rintro q rfl
    exact hzp

/-- A vmar that was just linked has no children. -/
theorem Allocated.leaf {c n offset : ℕ} {kind : VmarKind} (h : s.Ok k f)
    (ha : Allocated k s s1 f p c kind offset n) (z : ℕ) : s1.vmars.parent z ≠ some c := by
  obtain ⟨xs, page, -, -, -, hl⟩ := ha.place
  intro hz
  rw [hl.parent, Function.update_apply] at hz
  split at hz
  · obtain rfl := Option.some.inj hz
    obtain ⟨rank, hrank⟩ := ha.ok.tree.ranked
    exact hrank.ne (hl.parent.symm ▸ Function.update_self p _ _) rfl
  · exact h.tree.leaf (h.not_inTree ha.new.1 ha.new.2) z hz

/-- What `vmar_unmap` takes away is what the call before it added. -/
theorem Allocated.undone {c n offset : ℕ} {kind : VmarKind} (h : s.Ok k f)
    (ha : Allocated k s s1 f p c kind offset n) (hok' : s2.Ok k (Function.update f c 1))
    (hu : Unmaps k s1 s2 c p) : Undone s s2 p := by
  obtain ⟨xs, page, hxs, hmem, -, hl⟩ := ha.place
  have hb := h.dead c ha.new.1 ha.new.2
  have hbelow := below_of_leaf (ha.leaf h)
  have hparent : s2.vmars.parent = s.vmars.parent := by
    funext y
    by_cases hy : y = c
    · subst hy
      exact (hu.below y (.refl y)).1.trans hb.parent.symm
    · rw [(hu.kept y (by simpa [hbelow] using hy)).1, hl.parent, Function.update_of_ne hy]
      rfl
  have hfields : ∀ y, y ≠ c → s2.vmars.vmarFirstPage y = s.vmars.vmarFirstPage y ∧
      s2.vmars.pageEnd y = s.vmars.pageEnd y := fun y hy => by
    obtain ⟨-, h1, h2, -⟩ := hu.kept y (by simpa [hbelow] using hy)
    rw [pageEnd, pageEnd, vmarFirstPage, vmarFirstPage, h1, h2, hl.base, hl.pageCount,
      Function.update_of_ne hy, Function.update_of_ne hy]
    exact ⟨rfl, rfl⟩
  have hpc : p ≠ c := by
    rintro rfl
    obtain ⟨rank, hrank⟩ := ha.ok.tree.ranked
    exact hrank.ne hu.parent rfl
  have hchild : ∀ y, s.vmars.parent y = some p → y ≠ c := by
    rintro y hy rfl
    exact absurd (hb.parent.symm.trans hy) (by simp)
  obtain ⟨ys, hok2, hmem2⟩ := hok'.tree.children p
  rw [hparent] at hmem2
  have hpack : Packed s2.vmars.vmarFirstPage s2.vmars.pageEnd (s.vmars.vmarFirstPage p)
      (s.vmars.pageEnd p) xs :=
    hxs.packed.congr (fun y hy => (hfields y (hchild y ((hmem y).mp hy))).1)
      fun y hy => (hfields y (hchild y ((hmem y).mp hy))).2
  obtain rfl : ys = xs :=
    hok2.packed.eq_of_mem_iff hpack fun y => (hmem2 y).trans (hmem y).symm
  have hgaps : Gaps s.vmars.vmarFirstPage s.vmars.pageEnd s2.vmars.gap (s.vmars.vmarFirstPage p)
      ys := by
    rw [← (hfields p hpc).1]
    exact hok2.gaps.congr (fun y hy => (hfields y (hchild y ((hmem y).mp hy))).1.symm)
      (fun y hy => (hfields y (hchild y ((hmem y).mp hy))).2.symm) fun _ _ => rfl
  refine ⟨hok2.tree.toList.trans hxs.tree.toList.symm, fun y hy => ?_, ?_⟩
  · obtain ⟨A, B, rfl⟩ := List.append_of_mem ((hmem y).mpr hy)
    rw [(Gaps.append_cons_iff.mp hgaps).2.1, (Gaps.append_cons_iff.mp hxs.gaps).2.1]
  · ext q
    simp only [freePages, pages, hparent, (hfields p hpc).1, (hfields p hpc).2, Set.mem_setOf_eq]
    refine and_congr_right fun _ => forall_congr' fun y => forall_congr' fun hy => ?_
    rw [(hfields y (hchild y hy)).1, (hfields y (hchild y hy)).2]

/-- A vmar that was just linked can be unmapped. -/
theorem Allocated.clear {c n offset : ℕ} {kind : VmarKind} (h : s.Ok k f)
    (ha : Allocated k s s1 f p c kind offset n) (hk : kind ≠ .special) :
    s1.vmars.parent c = some p ∧ s1.Clear c := by
  obtain ⟨xs, page, -, -, -, hl⟩ := ha.place
  have hb := h.dead c ha.new.1 ha.new.2
  have hp : s1.vmars.parent c = some p := hl.parent.symm ▸ Function.update_self c _ _
  refine ⟨hp, fun y hy => ?_⟩
  rw [below_of_leaf (ha.leaf h)] at hy
  obtain rfl := Set.mem_singleton_iff.mp hy
  rw [hl.locked, hl.kind]
  exact ⟨hb.locked, by simpa [Vmars.initVmar] using hk⟩

/-- What `vmar_unmap` does in a state. -/
structure UnmapExact (k : Kernel) (s : Vmm) : Prop where
  unmaps : ∀ x, s.vmars.parent x ≠ none → s.Clear x → ∃ n, ∀ fuel, n ≤ fuel →
    ∃ s' p, s.vmarUnmap k fuel x = some s' ∧ Unmaps k s s' x p ∧
      s.Visits x (unmapVisits k fuel x s)
  allocate : ∀ parent offset n c s1, s.Known k parent →
    s.vmarAllocate k parent offset n = some (.ok c, s1) → ∃ m, ∀ fuel, m ≤ fuel →
      ∃ s2, s1.vmarUnmap k fuel c = some s2 ∧ Undone s s2 parent
  map : ∀ parent offset n c s1, s.Known k parent →
    s.vmarMap k parent offset n = some (.ok c, s1) → ∃ m, ∀ fuel, m ≤ fuel →
      ∃ s2, s1.vmarUnmap k fuel c = some s2 ∧ Undone s s2 parent

theorem Ok.unmaps (h : s.Ok k f) (hpg : s.PagesOk k) (hp : s.vmars.parent x ≠ none)
    (hc : s.Clear x) : ∃ n, ∀ fuel, n ≤ fuel → ∃ s' p, s.vmarUnmap k fuel x = some s' ∧ s'.Ok k f ∧
      Unmaps k s s' x p ∧ s.Visits x (unmapVisits k fuel x s) := by
  obtain ⟨hpart, htot⟩ := h.vmarUnmap hpg
  obtain ⟨n, hn⟩ := htot hp hc
  refine ⟨n, fun fuel hfuel => ?_⟩
  obtain ⟨s', e⟩ := hn fuel hfuel
  have hu : s.vmars.unmapped x ≠ true := fun hu => h.tree.unmapped x hu (Or.inr hp)
  rcases hpart fuel s' e with ⟨hu', -⟩ | ⟨p, hpp, -, hok', -, hd⟩
  · exact absurd hu' hu
  · refine ⟨s', p, e, hok', hd.unmaps h hok' hpp, ?_⟩
    rw [Vmm.vmarUnmap, if_neg hu] at e
    obtain ⟨s1, e1, -⟩ := Option.bind_eq_some_iff.mp e
    exact unmapVisits_spec fuel x s f s1 h hpg e1

/-- A vmar that was just linked is unmapped again. -/
theorem Allocated.unmapAgain {c n offset : ℕ} {kind : VmarKind} (h : s.Ok k f)
    (ha : Allocated k s s1 f p c kind offset n) (hpg : s1.PagesOk k) (hk : kind ≠ .special) :
    ∃ m, ∀ fuel, m ≤ fuel → ∃ s2, s1.vmarUnmap k fuel c = some s2 ∧ Undone s s2 p := by
  obtain ⟨hp, hc⟩ := ha.clear h hk
  obtain ⟨m, hm⟩ := ha.ok.unmaps hpg (by simp [hp]) hc
  refine ⟨m, fun fuel hfuel => ?_⟩
  obtain ⟨s2, q, e, hok2, hu, -⟩ := hm fuel hfuel
  obtain rfl := Option.some.inj (hp.symm.trans hu.parent)
  exact ⟨s2, e, ha.undone h hok2 hu⟩

end Vmm

/-- In every reachable state `vmar_unmap` takes out what is below a vmar, and nothing else. -/
theorem unmapExact_of_reachable {k : Kernel} {r : VmmRun}
    (h : Reachable (VmmRun.Initial k) (VmmRun.Step k) r) : r.vmm.UnmapExact k := by
  obtain ⟨hok, hpg⟩ := VmmRun.good_of_reachable h
  refine ⟨fun x hp hc => ?_, fun parent offset n c s1 hk e => ?_,
    fun parent offset n c s1 hk e => ?_⟩
  · obtain ⟨n, hn⟩ := hok.unmaps hpg hp hc
    refine ⟨n, fun fuel hfuel => ?_⟩
    obtain ⟨s', p, e, -, hu, hv⟩ := hn fuel hfuel
    exact ⟨s', p, e, hu, hv⟩
  · obtain ⟨res, s', e', hpg', -, -, hcase⟩ := hpg.vmarAllocate hok hk offset n
    obtain ⟨rfl, rfl⟩ := Prod.mk.inj (Option.some.inj (e'.symm.trans e))
    rcases hcase with ⟨err, he, -⟩ | ⟨c', he, ha⟩
    · simp at he
    · obtain rfl := Except.ok.inj he
      exact ha.unmapAgain hok hpg' (by simp)
  · obtain ⟨res, s', e', hpg', -, hcase⟩ := hpg.vmarMap hok hk offset n
    obtain ⟨rfl, rfl⟩ := Prod.mk.inj (Option.some.inj (e'.symm.trans e))
    rcases hcase with ⟨err, he, -⟩ | ⟨c', he, ha, -⟩
    · simp at he
    · obtain rfl := Except.ok.inj he
      exact ha.unmapAgain hok hpg' (by simp)

theorem unmapExact_smallKernel :
    ∃ r, VmmRun.Initial smallKernel r ∧ r.vmm.UnmapExact smallKernel := by
  obtain ⟨r, h⟩ := exists_initial
  exact ⟨r, h, unmapExact_of_reachable (.start h)⟩

end Tomato
