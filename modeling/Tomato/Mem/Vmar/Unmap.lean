import Tomato.Mem.Vmar.Detach
import Tomato.Mem.Vmar.Entries

/-!
# Unmapping

`vmar_unmap_internal` takes a vmar and all that is below it out of the tree. The children of a
region go one by one, each before the list of its siblings is used again, and the pages of a
mapping are freed while it is locked.
-/

namespace Tomato

open RbTree Ranges Forest Transition Blocks Vmars

namespace Vmm

/-- What is below a vmar. -/
def below (s : Vmm) (x : ℕ) : Set ℕ := {y | Below s.vmars.parent y x}

/-- The vmar and all that is below it may be unmapped. -/
def Clear (s : Vmm) (x : ℕ) : Prop :=
  ∀ y ∈ s.below x, s.vmars.locked y = false ∧ s.vmars.kind y ≠ .special

/-- All that is below `x` left the tree, and the reference of the tree to `x` is still held. -/
structure Unmapped (k : Kernel) (s s' : Vmm) (f : ℕ → ℕ) (x p : ℕ) : Prop where
  parent : s.vmars.parent x = some p
  clear : s.Clear x
  ok : s'.Ok k (Function.update f x (f x + 1))
  pages : s'.PagesOk k
  detached : Detached k s s' (s.below x) {p}

/-- What is known of a call to `vmar_unmap_internal` that goes down so many levels. -/
def UnmapSpec (k : Kernel) (fuel : ℕ) (unmap : ℕ → Vmm → Option Vmm) : Prop :=
  ∀ x s f, s.Ok k f → s.PagesOk k →
    (∀ s', unmap x s = some s' → ∃ p, Unmapped k s s' f x p) ∧
    (s.vmars.parent x ≠ none → s.Clear x → Bounded s.vmars.parent fuel x →
      ∃ s', unmap x s = some s')

variable {k : Kernel} {s s' s1 s2 : Vmm} {f : ℕ → ℕ} {x y z p n fuel m : ℕ} {rest : List ℕ}
  {unmap : ℕ → Vmm → Option Vmm}

/-- The vmars below some of the children of a region. -/
def belowAll (s : Vmm) (rest : List ℕ) : Set ℕ := {y | ∃ c ∈ rest, y ∈ s.below c}

namespace Ok

/-- A child is not below one of its siblings, nor is their parent. -/
theorem notMem_below (h : s.Ok k f) (hx : s.vmars.parent x = some p) :
    p ∉ s.below x ∧ ∀ y ∈ s.below x, s.vmars.parent y = some p → y = x := by
  obtain ⟨rank, hrank⟩ := h.tree.ranked
  exact ⟨hrank.not_below hx, fun y hy hyp => hrank.eq_of_siblings hyp hx (.refl y) hy⟩

end Ok

/-- With a vmar all that is below it is in the set. -/
theorem below_closed {x : ℕ} : ∀ y q, s.vmars.parent y = some q → q ∈ s.below x → y ∈ s.below x :=
  fun _ _ hy hq => .head hy hq

/-- The vmars below another one after some were taken out. -/
theorem below_detached {S P : Set ℕ} (h : Detached k s s' S P)
    (hclosed : ∀ y q, s.vmars.parent y = some q → q ∈ S → y ∈ S) (hx : x ∉ S) :
    s'.below x = s.below x \ S := by
  ext y
  exact (Below.cut_iff h.inside h.outside hclosed hx).trans and_comm

/-- The parents that are left are those from before. -/
theorem Detached.parent_some {S P : Set ℕ} (h : Detached k s s' S P)
    (hy : s'.vmars.parent y = some p) : y ∉ S ∧ s.vmars.parent y = some p := by
  have hyS : y ∉ S := fun hc => by simp [h.inside y hc] at hy
  exact ⟨hyS, (h.outside y hyS).symm.trans hy⟩

/-- The siblings of a vmar that left the tree. -/
theorem Ok.siblings (h : s.Ok k f) (hu : Detached k s s2 (s.below x) {p})
    (h2 : s2.Ok k f) (hp : s.vmars.parent x = some p)
    (hok : s.vmars.ChildrenOk p (x :: rest))
    (hmem : ∀ z, z ∈ x :: rest ↔ s.vmars.parent z = some p) :
    s2.vmars.ChildrenOk p rest ∧ ∀ z, z ∈ rest ↔ s2.vmars.parent z = some p := by
  obtain ⟨hpx, hsib⟩ := h.notMem_below hp
  have hnd := List.nodup_cons.mp hok.tree.nodup
  have hout : ∀ z ∈ rest, z ∉ s.below x := fun z hz hb =>
    hnd.1 (hsib z hb ((hmem z).mp (List.mem_cons_of_mem x hz)) ▸ hz)
  have hmem2 : ∀ z, z ∈ rest ↔ s2.vmars.parent z = some p := by
    intro z
    constructor
    · intro hz
      rw [hu.outside z (hout z hz)]
      exact (hmem z).mp (List.mem_cons_of_mem x hz)
    · intro hz
      obtain ⟨hz1, hz2⟩ := hu.parent_some hz
      refine (List.mem_cons.mp ((hmem z).mpr hz2)).resolve_left ?_
      rintro rfl
      exact hz1 (.refl z)
  have hpages : ∀ z ∈ rest, s2.vmars.vmarFirstPage z = s.vmars.vmarFirstPage z ∧
      s2.vmars.pageEnd z = s.vmars.pageEnd z := by
    intro z hz
    obtain ⟨h1, h3, -⟩ := hu.fields z (Or.inl (hout z hz))
    rw [pageEnd, pageEnd, vmarFirstPage, vmarFirstPage, h1, h3]
    exact ⟨rfl, rfl⟩
  obtain ⟨ys, hys, hysmem⟩ := h2.tree.children p
  have hpack : Packed s2.vmars.vmarFirstPage s2.vmars.pageEnd _ _ rest :=
    hok.packed.2.2.congr (fun z hz => (hpages z hz).1) fun z hz => (hpages z hz).2
  obtain rfl : ys = rest := hys.packed.eq_of_mem_iff hpack fun z => (hysmem z).trans (hmem2 z).symm
  exact ⟨hys, hmem2⟩

/-- A vmar that was clear, and is not among the ones that left the tree. -/
theorem Clear.detached {S P : Set ℕ} (h : s.Clear y) (hd : Detached k s s' S P)
    (hclosed : ∀ z q, s.vmars.parent z = some q → q ∈ S → z ∈ S) (hy : y ∉ S) : s'.Clear y := by
  intro z hz
  rw [below_detached hd hclosed hy] at hz
  obtain ⟨-, -, h3, h4⟩ := hd.fields z (Or.inl hz.2)
  rw [h3, h4]
  exact h z hz.1

/-- What is below the first of some siblings, and what is below the others after it left. -/
theorem belowAll_cons (h : s.Ok k f) (hd : Detached k s s2 (s.below x) {p})
    (hp : s.vmars.parent x = some p) (hrest : ∀ z ∈ rest, s2.vmars.parent z = some p) :
    s.belowAll (x :: rest) = s.below x ∪ s2.belowAll rest := by
  have hout : ∀ z ∈ rest, z ∉ s.below x := fun z hz => (hd.parent_some (hrest z hz)).1
  ext y
  simp only [belowAll, List.mem_cons, exists_eq_or_imp, Set.mem_ofPred_eq, Set.mem_union]
  by_cases hy : y ∈ s.below x
  · simp [hy]
  · simp only [hy, false_or]
    refine exists_congr fun c => and_congr_right fun hc => ?_
    rw [below_detached hd below_closed (hout c hc)]
    simp [hy]

/-- What is known once the first child is out. -/
theorem unmapChild_spec (hspec : UnmapSpec k fuel unmap) (h : s.Ok k f) (hpg : s.PagesOk k)
    (hx : s.vmars.parent x = some p) (e1 : unmap x s = some s1) :
    ∃ s2, s1.objectPut k x = some s2 ∧ s2.Ok k f ∧ s2.PagesOk k ∧
      Detached k s s2 (s.below x) {p} ∧ s.Clear x := by
  obtain ⟨q, hu⟩ := (hspec x s f h hpg).1 s1 e1
  obtain rfl := Option.some.inj (hx.symm.trans hu.parent)
  have hpos : 0 < Function.update f x (f x + 1) x := by simp
  obtain ⟨s2, e2, hok2, -, -⟩ := hu.ok.objectPut hpos
  have hf : Function.update (Function.update f x (f x + 1)) x
      (Function.update f x (f x + 1) x - 1) = f := by simp
  exact ⟨s2, e2, hf ▸ hok2, hu.pages.objectPut hu.ok hpos e2,
    hu.detached.put hu.ok (Below.refl x) hpos e2, hu.clear⟩

/-- The loop takes out all the children of a region. -/
theorem unmapChildren_spec (hspec : UnmapSpec k fuel unmap) (h : s.Ok k f) (hpg : s.PagesOk k)
    (hok : s.vmars.ChildrenOk p rest) (hmem : ∀ z, z ∈ rest ↔ s.vmars.parent z = some p) :
    (∀ s', unmapChildren k unmap m rest.head? s = some s' →
      s'.Ok k f ∧ s'.PagesOk k ∧ Detached k s s' (s.belowAll rest) {p} ∧
        ∀ c ∈ rest, s.Clear c) ∧
    (rest.length ≤ m → (∀ c ∈ rest, s.Clear c ∧ Bounded s.vmars.parent fuel c) →
      ∃ s', unmapChildren k unmap m rest.head? s = some s') := by
  induction rest generalizing s m with
  | nil =>
    have hloop : unmapChildren k unmap m none s = some s := by cases m <;> rfl
    refine ⟨fun s' he => ?_, fun _ _ => ⟨s, hloop⟩⟩
    obtain rfl := Option.some.inj (hloop.symm.trans he)
    have hempty : s.belowAll [] = ∅ := by simp [belowAll]
    exact ⟨h, hpg, hempty ▸ .refl k s {p}, by simp⟩
  | cons x rest ih =>
    have hx : s.vmars.parent x = some p := (hmem x).mp (by simp)
    have hnext : s.vmars.next x = rest.head? := hok.tree.links.next [] x rest rfl
    have hin : s.vmars.InTree k.roots x := Or.inr (by simp [hx])
    have hunm : s.vmars.unmapped x = false := by
      by_contra hne
      exact h.tree.unmapped x (by simpa using hne) hin
    obtain ⟨-, htot⟩ := hspec x s f h hpg
    have hafter := fun s1 (e1 : unmap x s = some s1) => unmapChild_spec hspec h hpg hx e1
    cases m with
    | zero => exact ⟨fun s' he => by simp [unmapChildren] at he, fun hlen => by simp at hlen⟩
    | succ m =>
      constructor
      · intro s' he
        simp only [List.head?_cons, unmapChildren, hunm, hnext, Option.bind_eq_bind] at he
        by_cases hlock : s.vmars.locked x = true
        · simp [hlock] at he
        rw [if_neg (by simp), if_neg hlock] at he
        obtain ⟨s1, e1, he⟩ := Option.bind_eq_some_iff.mp he
        obtain ⟨s2, e2, hok2, hpg2, hd2, hclear⟩ := hafter s1 e1
        rw [e2, Option.bind_some] at he
        obtain ⟨hrest, hmem2⟩ := h.siblings hd2 hok2 hx hok hmem
        obtain ⟨hok', hpg', hd', hclear'⟩ := (ih hok2 hpg2 hrest hmem2).1 s' he
        have hall := belowAll_cons h hd2 hx fun z hz => (hmem2 z).mp hz
        refine ⟨hok', hpg', ?_, fun c hc => ?_⟩
        · rw [hall, ← Set.union_self {p}]
          refine hd2.trans hd' fun y hy => ?_
          obtain ⟨c, hc, hyc⟩ := hy
          rw [below_detached hd2 below_closed (hd2.parent_some ((hmem2 c).mp hc)).1] at hyc
          exact hyc.2
        · rcases List.mem_cons.mp hc with rfl | hc
          · exact hclear
          · have hout := (hd2.parent_some ((hmem2 c).mp hc)).1
            intro y hy
            by_cases hyx : y ∈ s.below x
            · exact hclear y hyx
            obtain ⟨-, -, h3, h4⟩ := hd2.fields y (Or.inl hyx)
            rw [← h3, ← h4]
            refine hclear' c hc y ?_
            rw [below_detached hd2 below_closed hout]
            exact ⟨hy, hyx⟩
      · intro hlen hclear
        obtain ⟨hcx, hbx⟩ := hclear x (by simp)
        obtain ⟨s1, e1⟩ := htot (by simp [hx]) hcx hbx
        obtain ⟨s2, e2, hok2, hpg2, hd2, -⟩ := hafter s1 e1
        obtain ⟨hrest, hmem2⟩ := h.siblings hd2 hok2 hx hok hmem
        obtain ⟨s', e'⟩ := (ih (m := m) hok2 hpg2 hrest hmem2).2 (by simpa using hlen) fun c hc => by
          obtain ⟨h1, h2⟩ := hclear c (by simp [hc])
          exact ⟨h1.detached hd2 below_closed (hd2.parent_some ((hmem2 c).mp hc)).1,
            h2.cut fun y q hy => (hd2.parent_some hy).2⟩
        refine ⟨s', ?_⟩
        simp only [List.head?_cons, unmapChildren, hunm, (hcx x (.refl x)).1, hnext,
          Option.bind_eq_bind, e1, Option.bind_some, e2, e', Bool.false_eq_true, if_false]

/-- The pages of the vmars that are no mappings. -/
theorem pagesOf_singleton (hk : s.vmars.kind x ≠ .mapping) : s.pagesOf {x} = ∅ := by
  rw [Set.eq_empty_iff_forall_notMem]
  rintro n ⟨y, rfl, hy, -⟩
  exact hk hy

/-- A vmar whose pages are free, and that has no children, leaves the tree. -/
theorem Ok.detach (h1 : s1.Ok k f) (h : s.Ok k f) (hpg : s.PagesOk k)
    (hv : s1.vmars = s.vmars) (hlive : s1.run.live = s.run.live)
    (hp : s.vmars.parent x = some p) (hleaf : ∀ z, s.vmars.parent z ≠ some x)
    (hk : s.vmars.kind x ≠ .special)
    (hc : VirtState.Changed k.d s.virt s1.virt (s.pagesOf {x}))
    (hz : ∀ n ∈ s.pagesOf {x}, s1.virt.flatMap k.d n = 0)
    (hres : s1.virt.phys.acct.reserved +
      {n | n ∈ s.pagesOf {x} ∧ s.virt.flatMap k.d n = 0}.ncard = s.virt.phys.acct.reserved) :
    ∃ v', s1.vmars.vmarUnlink p x = some v' ∧
      (s1.setVmars v').Ok k (Function.update f x (f x + 1)) ∧ (s1.setVmars v').PagesOk k ∧
      Detached k s (s1.setVmars v') {x} {p} := by
  rw [← hv] at hp hleaf hk
  obtain ⟨A, B, v', -, e, -, hrel, hmem, hpar, hunm, hok'⟩ := h1.unlink hp hleaf hk
  have hd : Detached k s (s1.setVmars v') {x} {p} :=
    detached_unlink hv hlive hc hz hrel hmem hpar hunm
  rw [hv] at hp hk
  exact ⟨v', e, hok', hpg.detach h hd (by simp [hp]) hk
    (hlive.symm ▸ h.mem_live (by simp [hp]) hk) hres, hd⟩

/-- A vmar that has no children is only above itself. -/
theorem below_of_leaf (hleaf : ∀ z, s.vmars.parent z ≠ some x) : s.below x = {x} :=
  Set.Subset.antisymm (fun _ hy => Below.eq_of_leaf hy hleaf) (by rintro y rfl; exact .refl y)

/-- What is below a region is below its children. -/
theorem below_eq (hmem : ∀ z, z ∈ rest ↔ s.vmars.parent z = some x) :
    s.below x = s.belowAll rest ∪ {x} := by
  ext y
  constructor
  · intro hy
    rcases Relation.ReflTransGen.cases_tail hy with he | ⟨c, hyc, hc⟩
    · exact Or.inr he.symm
    · exact Or.inl ⟨c, (hmem c).mpr hc, hyc⟩
  · rintro (⟨c, hc, hyc⟩ | rfl)
    · exact Below.tail hyc ((hmem c).mp hc)
    · exact .refl y

/-- The part of `vmar_unmap_internal` for a region, and the end of it. -/
theorem unmap_region (hspec : UnmapSpec k fuel unmap) (h : s.Ok k f) (hpg : s.PagesOk k)
    (hp : s.vmars.parent x = some p) (hk : s.vmars.kind x = .region)
    (hl : s.vmars.locked x = false) :
    (∀ s1, unmapChildren k unmap fuel (s.vmars.leftmost x) s = some s1 →
      ∃ v', s1.vmars.vmarUnlink p x = some v' ∧ Unmapped k s (s1.setVmars v') f x p) ∧
    (s.Clear x → Bounded s.vmars.parent (fuel + 1) x →
      ∃ s1, unmapChildren k unmap fuel (s.vmars.leftmost x) s = some s1) := by
  obtain ⟨rest, hok, hmem⟩ := h.tree.children x
  have hleft : s.vmars.leftmost x = rest.head? := hok.tree.links.leftmost
  have hbelow := below_eq hmem
  have hout : ∀ c ∈ rest, x ∉ s.below c := fun c hc => (h.notMem_below ((hmem c).mp hc)).1
  have hx : x ∉ s.belowAll rest := fun ⟨c, hc, hxc⟩ => hout c hc hxc
  obtain ⟨hpart, htot⟩ := unmapChildren_spec (m := fuel) hspec h hpg hok hmem
  rw [hleft]
  refine ⟨fun s1 e => ?_, fun hclear hb => htot ?_ fun c hc => ?_⟩
  · obtain ⟨h1, hpg1, hd1, hclear⟩ := hpart s1 e
    obtain ⟨-, -, hkx, -⟩ := hd1.fields x (Or.inl hx)
    have hleaf : ∀ z, s1.vmars.parent z ≠ some x := fun z hz => by
      obtain ⟨hz1, hz2⟩ := hd1.parent_some hz
      exact hz1 ⟨z, (hmem z).mpr hz2, .refl z⟩
    have hempty : s1.pagesOf {x} = ∅ := pagesOf_singleton (by simp [hkx, hk])
    obtain ⟨v', e', hok', hpg', hd'⟩ := h1.detach h1 hpg1 rfl rfl
      ((hd1.outside x hx).trans hp) hleaf (by simp [hkx, hk]) (.refl _ _) (by simp [hempty])
      (by simp [hempty])
    refine ⟨v', e', hp, fun y hy => ?_, hok', hpg', ?_⟩
    · rcases hbelow ▸ hy with ⟨c, hc, hyc⟩ | rfl
      · exact hclear c hc y hyc
      · exact ⟨hl, by simp [hk]⟩
    · rw [hbelow]
      refine (hd1.trans hd' (by rintro y rfl; exact hx)).shrink ?_
      rintro r (rfl | rfl) hr
      · exact ⟨Or.inr rfl, fun z hz => Or.inl ⟨z, (hmem z).mpr hz, .refl z⟩⟩
      · exact absurd rfl hr
  · obtain ⟨⟨xs, hlen, hxs⟩, -⟩ := hb
    exact (List.Nodup.length_le_of_subset hok.tree.nodup fun z hz => hxs z ((hmem z).mp hz)).trans
      hlen
  · exact ⟨fun y hy => hclear y (Below.tail hy ((hmem c).mp hc)), hb.2 c ((hmem c).mp hc)⟩

/-- The part for a mapping, and the end of it. -/
theorem unmap_mapping (h : s.Ok k f) (hpg : s.PagesOk k) (hp : s.vmars.parent x = some p)
    (hk : s.vmars.kind x = .mapping) (hl : s.vmars.locked x = false) :
    ∃ s1 v', s.execVirt k (.free (s.vmars.base x) (s.vmars.pageCount x)) = some s1 ∧
      s1.vmars.vmarUnlink p x = some v' ∧ Unmapped k s (s1.setVmars v') f x p := by
  obtain ⟨vs, e, h1, hch, hzero, hres⟩ := hpg.free h (by simp [hp]) hk hl
  have hpages : s.pagesOf {x} = s.vmars.pageNumbers x := by
    ext n
    constructor
    · rintro ⟨y, rfl, -, hn⟩
      exact hn
    · exact fun hn => ⟨x, rfl, hk, hn⟩
  have hleaf := h.tree.leaf_of_kind (by simp [hk] : s.vmars.kind x ≠ .region)
  obtain ⟨v', e', hok', hpg', hd'⟩ := h1.detach h hpg rfl rfl hp hleaf (by simp [hk])
    (hpages ▸ hch) (hpages ▸ hzero) (hpages ▸ hres)
  have hbelow := below_of_leaf hleaf
  refine ⟨_, v', e, e', hp, fun y hy => ?_, hok', hpg', hbelow ▸ hd'⟩
  obtain rfl : y = x := by simpa [hbelow] using hy
  exact ⟨hl, by simp [hk]⟩

/-- One more level of `vmar_unmap_internal`. -/
theorem unmapSpec_step (hspec : UnmapSpec k fuel (vmarUnmapInternal k fuel)) :
    UnmapSpec k (fuel + 1) (vmarUnmapInternal k (fuel + 1)) := by
  intro x s f h hpg
  cases hp : s.vmars.parent x with
  | none =>
    refine ⟨fun s' he => ?_, fun hc => absurd rfl hc⟩
    simp [vmarUnmapInternal, hp] at he
  | some p =>
    have hkp : s.vmars.kind p = .region := (h.tree.parent x p hp).1
    have hunm : s.vmars.unmapped x = false := by
      by_contra hne
      exact h.tree.unmapped x (by simpa using hne) (Or.inr (by simp [hp]))
    by_cases hlock : s.vmars.locked x = true
    · refine ⟨fun s' he => ?_, fun _ hc => absurd (hc x (.refl x)).1 (by simp [hlock])⟩
      simp [vmarUnmapInternal, hlock] at he
    have hl : s.vmars.locked x = false := by simpa using hlock
    cases hk : s.vmars.kind x with
    | region =>
      obtain ⟨hpart, htot⟩ := unmap_region hspec h hpg hp hk hl
      have heq : vmarUnmapInternal k (fuel + 1) x s =
          (unmapChildren k (vmarUnmapInternal k fuel) fuel (s.vmars.leftmost x) s).bind
            fun s1 => (s1.vmars.vmarUnlink p x).map s1.setVmars := by
        simp [vmarUnmapInternal, hunm, hl, hp, hkp, hk]
      rw [heq]
      refine ⟨fun s' he => ?_, fun _ hclear hb => ?_⟩
      · obtain ⟨s1, e1, he⟩ := Option.bind_eq_some_iff.mp he
        obtain ⟨v', e', hu⟩ := hpart s1 e1
        rw [e', Option.map_some, Option.some.injEq] at he
        exact ⟨p, he ▸ hu⟩
      · obtain ⟨s1, e1⟩ := htot hclear hb
        obtain ⟨v', e', -⟩ := hpart s1 e1
        exact ⟨s1.setVmars v', by rw [e1, Option.bind_some, e', Option.map_some]⟩
    | mapping =>
      obtain ⟨s1, v', e1, e', hu⟩ := unmap_mapping h hpg hp hk hl
      obtain ⟨v, ev, hb, hc, -, -, -, hexec⟩ := h.locked_exec x
      have heq : vmarUnmapInternal k (fuel + 1) x s = some (s1.setVmars v') := by
        have hfree := hexec (.free (s.vmars.base x) (s.vmars.pageCount x))
        rw [e1] at hfree
        obtain ⟨s2, e2, hs2⟩ := Option.map_eq_some_iff.mp hfree
        simp [vmarUnmapInternal, hunm, hl, hp, hkp, hk, ev, hb, hc, e2, hs2, e']
      exact ⟨fun s' he => ⟨p, Option.some.inj (heq.symm.trans he) ▸ hu⟩, fun _ _ _ => ⟨_, heq⟩⟩
    | special =>
      refine ⟨fun s' he => ?_, fun _ hc => absurd hk (hc x (.refl x)).2⟩
      simp [vmarUnmapInternal, hunm, hl, hp, hkp, hk] at he

/-- `vmar_unmap_internal` goes down as far as it has to. -/
theorem unmapSpec (k : Kernel) (fuel : ℕ) : UnmapSpec k fuel (vmarUnmapInternal k fuel) := by
  induction fuel with
  | zero => exact fun x s f _ _ => ⟨fun s' he => by simp [vmarUnmapInternal] at he, fun _ _ hb => hb.elim⟩
  | succ fuel ih => exact unmapSpec_step ih

/-- Every vmar has few enough levels and children below it. -/
theorem Ok.exists_bounded (h : s.Ok k f) (x : ℕ) : ∃ n, Bounded s.vmars.parent n x := by
  obtain ⟨rank, hrank⟩ := h.tree.ranked
  refine Bounded.exists_bounded hrank (fun y => ?_) x
  obtain ⟨xs, -, hxs⟩ := h.tree.children y
  exact ⟨xs, fun z hz => (hxs z).mpr hz⟩

/-- `vmar_unmap` of a vmar that is in the tree, or that has left it before. -/
theorem Ok.vmarUnmap (h : s.Ok k f) (hpg : s.PagesOk k) :
    (∀ fuel s', s.vmarUnmap k fuel x = some s' → (s.vmars.unmapped x = true ∧ s' = s) ∨
      ∃ p, s.vmars.parent x = some p ∧ s.Clear x ∧ s'.Ok k f ∧ s'.PagesOk k ∧
        Detached k s s' (s.below x) {p}) ∧
    (s.vmars.parent x ≠ none → s.Clear x →
      ∃ n, ∀ fuel, n ≤ fuel → ∃ s', s.vmarUnmap k fuel x = some s') := by
  have hput : ∀ s1 p, Unmapped k s s1 f x p → ∃ s', s1.objectPut k x = some s' ∧ s'.Ok k f ∧
      s'.PagesOk k ∧ Detached k s s' (s.below x) {p} := by
    intro s1 p hu
    have hpos : 0 < Function.update f x (f x + 1) x := by simp
    obtain ⟨s', e, hok, -⟩ := hu.ok.objectPut hpos
    have hf : Function.update (Function.update f x (f x + 1)) x
        (Function.update f x (f x + 1) x - 1) = f := by simp
    exact ⟨s', e, hf ▸ hok, hu.pages.objectPut hu.ok hpos e,
      hu.detached.put hu.ok (Below.refl x) hpos e⟩
  constructor
  · intro fuel s' he
    by_cases hu : s.vmars.unmapped x = true
    · rw [Vmm.vmarUnmap, if_pos hu] at he
      exact Or.inl ⟨hu, (Option.some.inj he).symm⟩
    · rw [Vmm.vmarUnmap, if_neg hu, Option.bind_eq_bind] at he
      obtain ⟨s1, e1, he⟩ := Option.bind_eq_some_iff.mp he
      obtain ⟨p, hun⟩ := (unmapSpec k fuel x s f h hpg).1 s1 e1
      obtain ⟨s2, e2, hok, hpg', hd⟩ := hput s1 p hun
      obtain rfl := Option.some.inj (e2.symm.trans he)
      exact Or.inr ⟨p, hun.parent, hun.clear, hok, hpg', hd⟩
  · intro hp hc
    obtain ⟨n, hn⟩ := h.exists_bounded x
    refine ⟨n, fun fuel hfuel => ?_⟩
    have hu : s.vmars.unmapped x ≠ true := fun hu => h.tree.unmapped x hu (Or.inr hp)
    obtain ⟨hpart, htot⟩ := unmapSpec k fuel x s f h hpg
    obtain ⟨s1, e1⟩ := htot hp hc (hn.mono hfuel)
    obtain ⟨p, hun⟩ := hpart s1 e1
    obtain ⟨s', e', -⟩ := hput s1 p hun
    exact ⟨s', by rw [Vmm.vmarUnmap, if_neg hu, e1, Option.bind_eq_bind, Option.bind_some, e']⟩

end Vmm

end Tomato
