import Tomato.Mem.Vmar.CoresTree

/-!
# Runs of the cores

The rest of the invariant, and what it says of runs: nothing is populated behind the back of a
core that unmaps, every frame goes back once, nobody uses a vmar that was freed, and somebody can
always go on.
-/

namespace Tomato

open Forest Tally Transition

namespace VmarCores

variable {ι : Type*} {roots : Finset ℕ} {s s' : VmarCores ι} {c d e : ι}
  {q : VmarPc} {x y n m p f first : ℕ} {above : List ℕ} {kind : VmarKind}

theorem tree_congr (h : s.TreeOk roots) (hv : SameVmars s s') : s'.TreeOk roots := by
  have hp : s'.pages = s.pages := funext hv.pages
  have hl : ∀ x, s'.Linked x ↔ s.Linked x := fun x => by rw [Linked, Linked, hv.parent]
  refine ⟨?_, ?_, ?_, ?_, ?_, ?_, ?_, ?_⟩
  · rw [hv.parent]
    exact h.ranked
  · rw [hv.parent, hp]
    exact h.nested
  · simp only [hv.parent, hv.kind, hl]
    exact h.parent
  · simp only [hl, hv.unmapped]
    exact h.linked
  · simp only [hl, hv.parent]
    exact h.rooted
  · simp only [hv.kind, hv.unmapped]
    exact h.root
  · simp only [hp]
    exact h.apart
  · simp only [hv.parent, hv.kind]
    exact h.special

theorem covers_page {i : ℕ} (hl : s.Linked x) (hk : s.kind x = .mapping)
    (hi : i < s.pageCount x) : s.Covers x (s.firstPage x + i) (s.firstPage x + i + 1) := by
  refine ⟨hl, hk, fun n hn => ⟨?_, ?_⟩⟩
  · have := hn.1
    omega
  · have := hn.2
    omega

theorem not_locking_of_frees (h : q.Frees x) : q.beforeShared = none ∧ q.afterShared = none ∧
    q.beforeExclusive = none ∧ q.afterExclusive = none ∧ q.beforeMutex = none ∧
    q.afterMutex = none := by
  cases q with
  | unmap phase y above =>
    cases phase with
    | invalidate i | free i => exact ⟨rfl, rfl, rfl, rfl, rfl, rfl⟩
    | _ => exact h.elim
  | _ => exact h.elim

variable [Fintype ι] [DecidableEq ι]

namespace Inv

/-- The parent of a new vmar is in the tree. -/
theorem linked_of_known (h : s.Inv roots) (hp : p ∈ roots ∨ 0 < s.handles c p)
    (hu : s.unmapped p = false) : p ∈ roots ∨ s.Linked p := by
  refine hp.imp_right fun hh hn => ?_
  obtain ⟨hr, -⟩ := h.refs.handle c p hh
  have hlive : p ∈ s.live := (h.refs.live p).mpr (h.refs.refs_pos (Or.inr (Or.inr (Or.inl hh))))
  obtain ⟨d, hd⟩ := h.refs.unlinked p hlive hr hn hu
  have := (h.alone hd c).1
  omega

theorem tree_place (h : s.Inv roots) (hc : s.pc c = .mapPlace p x n) (hu : s.unmapped p = false)
    (hf : s.Fits p first n) :
    (((s.link x p first n).setHandles c x 1).setPc c .treeUnlock).TreeOk roots := by
  obtain ⟨hnew, hpar, hkp, -⟩ := h.pc_ok hc
  have ht := h.tree
  have hp := h.linked_of_known hpar hu
  have hpx : p ≠ x := by
    rintro rfl
    exact hp.elim hnew.root fun hl => hl hnew.unlinked
  generalize hs' : ((s.link x p first n).setHandles c x 1).setPc c .treeUnlock = s'
  have hparent : s'.parent = Function.update s.parent x (some p) := by rw [← hs']; rfl
  have hpages : ∀ y ≠ x, s'.pages y = s.pages y := fun y hy => by
    rw [← hs']
    simp [VmarCores.pages, hy]
  have hpagesx : s'.pages x = Set.Ico first (first + n) := by
    rw [← hs']
    simp [VmarCores.pages]
  have hkind : s'.kind = s.kind := by rw [← hs']; rfl
  have hunm : s'.unmapped = s.unmapped := by rw [← hs']; rfl
  have hold : ∀ y ≠ x, s'.parent y = s.parent y := fun y hy => by
    rw [hparent, Function.update_of_ne hy]
  have hnewp : s'.parent x = some p := by rw [hparent, Function.update_self]
  have hne : ∀ y z, s.parent y = some z → z ≠ x := by
    rintro y z hy rfl
    exact hnew.childless y hy
  have hmono : ∀ y, s.Linked y → s'.Linked y := by
    intro y hy
    by_cases hyx : y = x
    · exact absurd hnew.unlinked (hyx ▸ hy)
    · rwa [Linked, hold y hyx]
  refine ⟨?_, ⟨?_, ?_⟩, ?_, ?_, ?_, ?_, ?_, ?_⟩
  · obtain ⟨rank, hrank⟩ := ht.ranked
    rw [hparent]
    exact ⟨_, hrank.link hnew.childless hpx.symm⟩
  · intro y z hy
    by_cases hyx : y = x
    · subst hyx
      obtain rfl := Option.some.inj (hnewp.symm.trans hy)
      rw [hpagesx, hpages p hpx]
      exact hf.inside
    · rw [hold y hyx] at hy
      rw [hpages y hyx, hpages z (hne y z hy)]
      exact ht.nested.inside y z hy
  · intro y z r b hy hz hby hbz
    by_cases hyx : y = x <;> by_cases hzx : z = x
    · exact hyx.trans hzx.symm
    · subst hyx
      obtain rfl := Option.some.inj (hnewp.symm.trans hy)
      rw [hold z hzx] at hz
      rw [hpagesx] at hby
      rw [hpages z hzx] at hbz
      exact absurd hby (Set.disjoint_left.mp (hf.apart z hz) hbz)
    · subst hzx
      obtain rfl := Option.some.inj (hnewp.symm.trans hz)
      rw [hold y hyx] at hy
      rw [hpagesx] at hbz
      rw [hpages y hyx] at hby
      exact absurd hbz (Set.disjoint_left.mp (hf.apart y hy) hby)
    · rw [hold y hyx] at hy
      rw [hold z hzx] at hz
      rw [hpages y hyx] at hby
      rw [hpages z hzx] at hbz
      exact ht.nested.apart y z r b hy hz hby hbz
  · intro y z hy
    rw [hkind]
    by_cases hyx : y = x
    · subst hyx
      obtain rfl := Option.some.inj (hnewp.symm.trans hy)
      exact ⟨hkp, hp.imp_right (hmono p)⟩
    · rw [hold y hyx] at hy
      exact ⟨(ht.parent y z hy).1, (ht.parent y z hy).2.imp_right (hmono z)⟩
  · intro y hy
    rw [hunm]
    by_cases hyx : y = x
    · exact hyx ▸ ⟨hnew.root, hnew.unmapped⟩
    · rw [Linked, hold y hyx] at hy
      exact ht.linked y hy
  · intro y hy
    rw [hparent]
    by_cases hyx : y = x
    · subst hyx
      rcases hp with hr | hl
      · exact ⟨p, hr, Below.head (Function.update_self ..) (Below.refl p)⟩
      · obtain ⟨r, hr, hb⟩ := ht.rooted p hl
        exact ⟨r, hr, Below.head (Function.update_self ..) (hb.link hnew.unlinked)⟩
    · rw [Linked, hold y hyx] at hy
      obtain ⟨r, hr, hb⟩ := ht.rooted y hy
      exact ⟨r, hr, hb.link hnew.unlinked⟩
  · rw [hkind, hunm]
    exact ht.root
  · intro y hy z hz hyz
    have hroot : ∀ r ∈ roots, r ≠ x := by
      rintro r hr rfl
      exact hnew.root hr
    rw [hpages y (hroot y hy), hpages z (hroot z hz)]
    exact ht.apart y hy z hz hyz
  · intro y z hy hk
    rw [hkind] at hk
    by_cases hyx : y = x
    · exact absurd (hyx ▸ hk) hnew.kind
    · rw [hold y hyx] at hy
      exact ht.special y z hy hk

theorem tree_unlink (h : s.Inv roots) (hc : s.pc c = .unmap .unlink x above) :
    ((s.unlink x).setPc c (.unmap .put x above)).TreeOk roots := by
  obtain ⟨hpath, hchild, -⟩ := h.pc_ok hc
  have ht := h.tree
  have hroot := (ht.linked x (hpath.linked x List.mem_cons_self)).1
  generalize hs' : (s.unlink x).setPc c (.unmap .put x above) = s'
  have hparent : s'.parent = Function.update s.parent x none := by rw [← hs']; rfl
  have hpages : s'.pages = s.pages := by rw [← hs']; rfl
  have hkind : s'.kind = s.kind := by rw [← hs']; rfl
  have hunm : ∀ y ≠ x, s'.unmapped y = s.unmapped y := fun y hy => by
    rw [← hs']
    simp [hy]
  have hold : ∀ y z, s'.parent y = some z → y ≠ x ∧ z ≠ x ∧ s.parent y = some z := by
    intro y z hy
    rw [hparent] at hy
    have hyx : y ≠ x := by
      rintro rfl
      simp at hy
    rw [Function.update_of_ne hyx] at hy
    exact ⟨hyx, fun hz => hchild y (hz ▸ hy), hy⟩
  have hlinked : ∀ y, s'.Linked y ↔ y ≠ x ∧ s.Linked y := by
    intro y
    rw [Linked, Linked, hparent]
    by_cases hyx : y = x <;> simp [hyx]
  refine ⟨?_, ⟨?_, ?_⟩, ?_, ?_, ?_, ?_, ?_, ?_⟩
  · obtain ⟨rank, hrank⟩ := ht.ranked
    exact ⟨rank, hparent ▸ hrank.unlink⟩
  · intro y z hy
    rw [hpages]
    exact ht.nested.inside y z (hold y z hy).2.2
  · intro y z r b hy hz
    rw [hpages]
    exact ht.nested.apart y z r b (hold y r hy).2.2 (hold z r hz).2.2
  · intro y z hy
    obtain ⟨-, hzx, hy⟩ := hold y z hy
    rw [hkind]
    exact ⟨(ht.parent y z hy).1, (ht.parent y z hy).2.imp_right fun hl => (hlinked z).mpr ⟨hzx, hl⟩⟩
  · intro y hy
    obtain ⟨hyx, hy⟩ := (hlinked y).mp hy
    rw [hunm y hyx]
    exact ht.linked y hy
  · intro y hy
    obtain ⟨hyx, hy⟩ := (hlinked y).mp hy
    obtain ⟨r, hr, hb⟩ := ht.rooted y hy
    exact ⟨r, hr, hparent ▸ hb.unlink hchild hyx⟩
  · intro r hr
    have hrx : r ≠ x := fun he => hroot (he ▸ hr)
    rw [hkind, hunm r hrx]
    exact ht.root r hr
  · rw [hpages]
    exact ht.apart
  · intro y z hy hk
    rw [hkind] at hk
    exact ht.special y z (hold y z hy).2.2 hk

theorem tree_alloc (h : s.Inv roots) (hx : x ∉ s.live) :
    ((s.newVmar x kind).setPc c (.mapLock p x n)).TreeOk roots := by
  have ht := h.tree
  have hne : ∀ y, y ∈ roots ∨ s.Linked y → y ≠ x := by
    rintro y hy rfl
    exact hx (h.live_of_tree hy)
  have hlinked : ∀ y z, s.parent y = some z → s.Linked y := fun y z hy => by simp [Linked, hy]
  refine ⟨ht.ranked, ht.nested, fun y z hy => ?_, fun y hy => ?_, ht.rooted, fun r hr => ?_, ht.apart,
    fun y z hy hk => ?_⟩
  · have hz := ht.parent y z hy
    exact ⟨by simpa [hne z hz.2] using hz.1, hz.2⟩
  · have := ht.linked y hy
    exact ⟨this.1, by simpa [hne y (Or.inr hy)] using this.2⟩
  · simpa [hne r (Or.inl hr)] using ht.root r hr
  · have hyx := hne y (Or.inr (hlinked y z hy))
    exact ht.special y z hy (by simpa [hyx] using hk)

theorem tree_step (h : s.Inv roots) (hs : Step roots s s') : s'.TreeOk roots := by
  cases hs with
  | unlink hc => exact h.tree_unlink hc
  | alloc hc _ _ _ _ hx => exact h.tree_alloc hx
  | place hc hu hf => exact h.tree_place hc hu hf
  | _ => exact tree_congr h.tree ⟨rfl, rfl, rfl, rfl, rfl⟩

omit [Fintype ι] [DecidableEq ι] in
theorem leaves_congr (h : s.LeavesOk) (hpc : s'.pc = s.pc) (hv : SameVmars s s')
    (hl : s'.leaf = s.leaf) : s'.LeavesOk := by
  refine ⟨fun n hn => ?_, fun n hn => ?_⟩
  · rw [hl] at hn
    exact (h.covered n hn).imp fun _ hc => hv.covers hc
  · rw [hl] at hn
    obtain ⟨d, x, hd, hx⟩ := h.stale n hn
    exact ⟨d, x, by rwa [hpc], by rwa [hv.pages]⟩

omit [Fintype ι] in
/-- The leaf entries stay, and nobody leaves stale ones behind. -/
theorem leaves_keep (h : s.LeavesOk) (hpc : s'.pc = Function.update s.pc c q)
    (hv : SameVmars s s') (hl : s'.leaf = s.leaf)
    (hq : ∀ x, (s.pc c).Frees x → q.Frees x ∨ ∀ n ∈ s.pages x, ¬ (s.leaf n).Stale) :
    s'.LeavesOk := by
  refine ⟨fun n hn => ?_, fun n hn => ?_⟩
  · rw [hl] at hn
    exact (h.covered n hn).imp fun _ hc => hv.covers hc
  · rw [hl] at hn
    obtain ⟨d, x, hd, hx⟩ := h.stale n hn
    refine ⟨d, x, ?_, by rwa [hv.pages]⟩
    rw [hpc]
    by_cases hdc : d = c
    · subst hdc
      rw [Function.update_self]
      exact (hq x hd).resolve_right fun hall => hall n hx hn
    · rwa [Function.update_of_ne hdc]

omit [Fintype ι] in
/-- The entry of one page changes, and it is a page of a mapping that the core has locked. -/
theorem leaves_update {v : LeafEntry} (h : s.LeavesOk) (hpc : s'.pc = Function.update s.pc c q)
    (hv : SameVmars s s') (hl : s'.leaf = Function.update s.leaf m v) (hm : s.Covers x m (m + 1))
    (hs : v.Stale → q.Frees x) (hq : ∀ y, (s.pc c).Frees y → q.Frees y) : s'.LeavesOk := by
  refine ⟨fun n hn => ?_, fun n hn => ?_⟩
  · by_cases hnm : n = m
    · exact ⟨x, hv.covers (hnm ▸ hm)⟩
    · rw [hl, Function.update_of_ne hnm] at hn
      exact (h.covered n hn).imp fun _ hc => hv.covers hc
  · by_cases hnm : n = m
    · subst hnm
      rw [hl, Function.update_self] at hn
      refine ⟨c, x, ?_, ?_⟩
      · rw [hpc, Function.update_self]
        exact hs hn
      · rw [hv.pages]
        exact hm.pages ⟨le_rfl, Nat.lt_succ_self n⟩
    · rw [hl, Function.update_of_ne hnm] at hn
      obtain ⟨d, y, hd, hy⟩ := h.stale n hn
      refine ⟨d, y, ?_, by rwa [hv.pages]⟩
      rw [hpc]
      by_cases hdc : d = c
      · subst hdc
        rw [Function.update_self]
        exact hq y hd
      · rwa [Function.update_of_ne hdc]

theorem leaves_goto (h : s.Inv roots) (hg : s.Goto roots c (s.pc c) q) :
    (s.setPc c q).LeavesOk := by
  refine leaves_keep h.leaves rfl ⟨rfl, rfl, rfl, rfl, rfl⟩ rfl fun x hx => ?_
  generalize hq : s.pc c = q₀ at hg hx
  have hp := h.pc_ok hq
  cases hg with
  | untouched | invalidated | nothing => exact Or.inl hx
  | freed hi =>
    rename_i y i above
    obtain rfl : y = x := hx
    refine Or.inr fun n hn => ?_
    have hlt := hn.2
    rw [(hp.2.2 n hn).1 (by omega)]
    exact fun hst => by simp [LeafEntry.Stale] at hst
  | _ => exact hx.elim

theorem leaves_place (h : s.Inv roots) (hc : s.pc c = .mapPlace p x n) :
    (((s.link x p first n).setHandles c x 1).setPc c .treeUnlock).LeavesOk := by
  have hnew := (h.pc_ok hc).1
  have hmade : (s.pc c).made = some x := hc ▸ rfl
  have hpages : ∀ y ≠ x,
      (((s.link x p first n).setHandles c x 1).setPc c .treeUnlock).pages y = s.pages y :=
    fun y hy => by simp [VmarCores.pages, hy]
  refine ⟨fun m hm => ?_, fun m hm => ?_⟩
  · obtain ⟨y, hy⟩ := h.leaves.covered m hm
    have hyx : y ≠ x := by
      rintro rfl
      exact hy.linked hnew.unlinked
    exact ⟨y, hy.frame ⟨rfl, Function.update_of_ne hyx .., Function.update_of_ne hyx ..⟩
      ⟨Function.update_of_ne hyx .., rfl⟩⟩
  · obtain ⟨d, y, hd, hy⟩ := h.leaves.stale m hm
    have hdc : d ≠ c := by
      rintro rfl
      simp [hc, VmarPc.Frees] at hd
    have hyx : y ≠ x :=
      h.ne_of_made hmade hdc (VmarPc.mem_vmars_of_pinned (owns_of_frees hd).1)
    refine ⟨d, y, ?_, by rwa [hpages y hyx]⟩
    simpa [hdc] using hd

theorem leaves_unlink (h : s.Inv roots) (hc : s.pc c = .unmap .unlink x above) :
    ((s.unlink x).setPc c (.unmap .put x above)).LeavesOk := by
  obtain ⟨-, -, -, hempty⟩ := h.pc_ok hc
  refine ⟨fun m hm => ?_, fun m hm => ?_⟩
  · obtain ⟨y, hy⟩ := h.leaves.covered m hm
    have hyx : y ≠ x := by
      rintro rfl
      exact hm (hempty hy.kind m (hy.pages ⟨le_rfl, Nat.lt_succ_self m⟩))
    exact ⟨y, hy.frame ⟨rfl, rfl, rfl⟩
      ⟨Function.update_of_ne hyx .., Function.update_of_ne hyx ..⟩⟩
  · obtain ⟨d, y, hd, -⟩ := h.leaves.stale m hm
    obtain rfl := h.locks.eq_of_exclusive (c := c) (by rw [hc]; exact Nat.one_pos)
      (exclusive_of_frees hd)
    simp [hc, VmarPc.Frees] at hd

theorem leaves_alloc (h : s.Inv roots) (hc : s.pc c = .idle) (hx : x ∉ s.live) :
    ((s.newVmar x kind).setPc c (.mapLock p x n)).LeavesOk := by
  refine ⟨fun m hm => ?_, fun m hm => ?_⟩
  · obtain ⟨y, hy⟩ := h.leaves.covered m hm
    have hyx : y ≠ x := by
      rintro rfl
      exact hx (h.live_of_tree (Or.inr hy.linked))
    exact ⟨y, hy.frame ⟨Function.update_of_ne hyx .., rfl, rfl⟩
      ⟨rfl, Function.update_of_ne hyx ..⟩⟩
  · obtain ⟨d, y, hd, hy⟩ := h.leaves.stale m hm
    have hdc : d ≠ c := by
      rintro rfl
      simp [hc, VmarPc.Frees] at hd
    exact ⟨d, y, by simpa [hdc] using hd, hy⟩

theorem leaves_step (h : s.Inv roots) (hs : Step roots s s') : s'.LeavesOk := by
  have hl := h.leaves
  cases hs with
  | goto hg => exact h.leaves_goto hg
  | lockShared hq =>
    exact leaves_keep hl rfl ⟨rfl, rfl, rfl, rfl, rfl⟩ rfl fun x hx => by
      simp [(not_locking_of_frees hx).1] at hq
  | unlockShared hq =>
    exact leaves_keep hl rfl ⟨rfl, rfl, rfl, rfl, rfl⟩ rfl fun x hx => by
      simp [(not_locking_of_frees hx).2.1] at hq
  | lockExclusive hq =>
    exact leaves_keep hl rfl ⟨rfl, rfl, rfl, rfl, rfl⟩ rfl fun x hx => by
      simp [(not_locking_of_frees hx).2.2.1] at hq
  | unlockExclusive hq =>
    exact leaves_keep hl rfl ⟨rfl, rfl, rfl, rfl, rfl⟩ rfl fun x hx => by
      simp [(not_locking_of_frees hx).2.2.2.1] at hq
  | lockMutex hq =>
    exact leaves_keep hl rfl ⟨rfl, rfl, rfl, rfl, rfl⟩ rfl fun x hx => by
      simp [(not_locking_of_frees hx).2.2.2.2.1] at hq
  | unlockMutex hq =>
    exact leaves_keep hl rfl ⟨rfl, rfl, rfl, rfl, rfl⟩ rfl fun x hx => by
      simp [(not_locking_of_frees hx).2.2.2.2.2] at hq
  | found hc | take hc | putUnmapped hc | putFault hc | noPlace hc | freeNew hc =>
    exact leaves_keep hl rfl ⟨rfl, rfl, rfl, rfl, rfl⟩ rfl fun x hx => by
      rw [hc] at hx
      exact hx.elim
  | store hc =>
    obtain ⟨hcov, -, hlt, -⟩ := h.pc_ok hc
    refine leaves_update hl rfl ⟨rfl, rfl, rfl, rfl, rfl⟩ rfl ⟨hcov.linked, hcov.kind, ?_⟩
      (fun hst => ?_) fun y hy => ?_
    · exact (Set.Ico_subset_Ico_right hlt).trans hcov.pages
    · simp [LeafEntry.Stale] at hst
    · rw [hc] at hy
      exact hy.elim
  | invalidate hc hi =>
    obtain ⟨hpath, hk, -⟩ := h.pc_ok hc
    refine leaves_update hl rfl ⟨rfl, rfl, rfl, rfl, rfl⟩ rfl
      (covers_page (hpath.linked _ List.mem_cons_self) hk hi) (fun _ => rfl) fun y hy => ?_
    rw [hc] at hy
    exact hy
  | free hc hi =>
    obtain ⟨hpath, hk, -⟩ := h.pc_ok hc
    refine leaves_update hl rfl ⟨rfl, rfl, rfl, rfl, rfl⟩ rfl
      (covers_page (hpath.linked _ List.mem_cons_self) hk hi) (fun _ => rfl) fun y hy => ?_
    rw [hc] at hy
    exact hy
  | unlink hc => exact h.leaves_unlink hc
  | alloc hc _ _ _ _ hx => exact h.leaves_alloc hc hx
  | place hc => exact h.leaves_place hc
  | get | put | pass | otherTake | otherFree =>
    exact leaves_congr hl rfl ⟨rfl, rfl, rfl, rfl, rfl⟩ rfl

omit [Fintype ι] in
/-- A step that changes neither the leaf entries nor the holders. -/
theorem frames_keep (h : s.FramesOk) (hpc : s'.pc = Function.update s.pc c q)
    (hl : s'.leaf = s.leaf) (hh : s'.holder = s.holder) (hi : s'.installed = s.installed)
    (hf : s'.freed = s.freed) (hq : ∀ w x n stop f, s.pc c ≠ .store w x n stop f) :
    s'.FramesOk := by
  refine ⟨fun n f => ?_, fun f d hd => ?_, fun f => ?_⟩
  · rw [hl, hh]
    exact h.leaf n f
  · rw [hh] at hd
    obtain ⟨w, x, n, stop, hp⟩ := h.core f d hd
    refine ⟨w, x, n, stop, ?_⟩
    rw [hpc, Function.update_of_ne, hp]
    rintro rfl
    exact hq w x n stop f hp
  · rw [hi, hf, hh]
    exact h.count f

omit [Fintype ι] [DecidableEq ι] in
theorem frames_congr (h : s.FramesOk) (hpc : s'.pc = s.pc) (hl : s'.leaf = s.leaf)
    (hh : s'.holder = s.holder) (hi : s'.installed = s.installed) (hf : s'.freed = s.freed) :
    s'.FramesOk :=
  ⟨by rw [hl, hh]; exact h.leaf, by rw [hh, hpc]; exact h.core, by rw [hi, hf, hh]; exact h.count⟩

theorem frames_take {w : Populator} {stop : ℕ} (h : s.Inv roots)
    (hc : s.pc c = .populate w x n stop) (hf : s.holder f = .allocator) :
    ((s.setHolder f (.core c)).setPc c (.store w x n stop f)).FramesOk := by
  have hfr := h.frames
  refine ⟨fun m g => ?_, fun g d hd => ?_, fun g => ?_⟩
  · by_cases hgf : g = f
    · subst hgf
      simp [hfr.leaf, hf]
    · simpa [hgf] using hfr.leaf m g
  · by_cases hgf : g = f
    · subst hgf
      obtain rfl : c = d := by simpa using hd
      exact ⟨w, x, n, stop, by simp⟩
    · obtain ⟨w', x', n', stop', hp⟩ := hfr.core g d (by simpa [hgf] using hd)
      have hdc : d ≠ c := by
        rintro rfl
        simp [hc] at hp
      exact ⟨w', x', n', stop', by simp [hdc, hp]⟩
  · have := hfr.count g
    by_cases hgf : g = f
    · subst hgf
      simpa [hf, FrameHolder.entries] using this
    · simpa [hgf] using this

theorem frames_store {w : Populator} {stop : ℕ} (h : s.Inv roots)
    (hc : s.pc c = .store w x n stop f) :
    ((s.install n f).setPc c (.populate w x (n + 1) stop)).FramesOk := by
  obtain ⟨-, -, -, hempty, hholder⟩ := h.pc_ok hc
  have hfr := h.frames
  refine ⟨fun m g => ?_, fun g d hd => ?_, fun g => ?_⟩
  · have hg := hfr.leaf m g
    by_cases hgf : g = f <;> by_cases hmn : m = n
    · simp [hgf, hmn, LeafEntry.frame]
    · subst hgf
      simp [hmn, Ne.symm hmn, hg, hholder]
    · subst hmn
      rw [hempty] at hg
      simpa [hgf, Ne.symm hgf, LeafEntry.frame] using hg
    · simpa [hgf, hmn] using hg
  · have hgf : g ≠ f := by
      rintro rfl
      simp at hd
    obtain ⟨w', x', n', stop', hp⟩ := hfr.core g d (by simpa [hgf] using hd)
    have hdc : d ≠ c := by
      rintro rfl
      rw [hc] at hp
      exact hgf (VmarPc.store.inj hp).2.2.2.2.symm
    exact ⟨w', x', n', stop', by simp [hdc, hp]⟩
  · have := hfr.count g
    by_cases hgf : g = f
    · subst hgf
      simp only [hholder, FrameHolder.entries] at this
      simp [FrameHolder.entries, this]
    · simpa [hgf] using this

theorem frames_invalidate {i : ℕ} (h : s.Inv roots) (hc : s.pc c = .unmap (.invalidate i) x above)
    (hf : (s.leaf m).frame = some f) :
    ((s.invalidate m f).setPc c (.unmap (.invalidate (i + 1)) x above)).FramesOk := by
  refine ⟨fun n g => ?_, fun g d hd => ?_, h.frames.count⟩
  · rw [setPc_leaf, invalidate_leaf, setPc_holder, invalidate_holder, ← h.frames.leaf n g]
    by_cases hnm : n = m
    · subst hnm
      rw [Function.update_self, hf]
      rfl
    · rw [Function.update_of_ne hnm]
  · obtain ⟨w, y, n, stop, hp⟩ := h.frames.core g d hd
    have hdc : d ≠ c := by
      rintro rfl
      simp [hc] at hp
    exact ⟨w, y, n, stop, by simp [hdc, hp]⟩

theorem frames_free {i : ℕ} (h : s.Inv roots) (hc : s.pc c = .unmap (.free i) x above)
    (hf : (s.leaf m).frame = some f) :
    ((s.freePage m f).setPc c (.unmap (.free (i + 1)) x above)).FramesOk := by
  have hholder := (h.frames.leaf m f).mp hf
  have hfr := h.frames
  refine ⟨fun n g => ?_, fun g d hd => ?_, fun g => ?_⟩
  · have hg := hfr.leaf n g
    by_cases hgf : g = f <;> by_cases hnm : n = m
    · simp [hgf, hnm, LeafEntry.frame]
    · subst hgf
      simp [hnm, Ne.symm hnm, hg, hholder]
    · subst hnm
      rw [hf] at hg
      simpa [hgf, Ne.symm hgf, LeafEntry.frame] using hg
    · simpa [hgf, hnm] using hg
  · have hgf : g ≠ f := by
      rintro rfl
      simp at hd
    obtain ⟨w, y, n, stop, hp⟩ := hfr.core g d (by simpa [hgf] using hd)
    have hdc : d ≠ c := by
      rintro rfl
      simp [hc] at hp
    exact ⟨w, y, n, stop, by simp [hdc, hp]⟩
  · have := hfr.count g
    by_cases hgf : g = f
    · subst hgf
      simp only [hholder, FrameHolder.entries] at this
      simp [FrameHolder.entries, this]
    · simpa [hgf] using this

omit [Fintype ι] [DecidableEq ι] in
/-- A frame comes to another client, or back from it. -/
theorem frames_other {g : FrameHolder ι} (h : s.FramesOk) (hf : (s.holder f).entries = 0)
    (hg : g.entries = 0) (hcore : ∀ d, g ≠ .core d) : (s.setHolder f g).FramesOk := by
  refine ⟨fun n k => ?_, fun k d hd => ?_, fun k => ?_⟩
  · rw [setHolder_leaf, setHolder_holder, h.leaf n k]
    by_cases hkf : k = f
    · subst hkf
      rw [Function.update_self]
      constructor
      · intro he
        simp [he, FrameHolder.entries] at hf
      · rintro rfl
        simp [FrameHolder.entries] at hg
    · rw [Function.update_of_ne hkf]
  · by_cases hkf : k = f
    · subst hkf
      exact absurd (by simpa using hd) (hcore d)
    · exact h.core k d (by simpa [hkf] using hd)
  · have := h.count k
    by_cases hkf : k = f
    · subst hkf
      simpa [hf, hg] using this
    · simpa [hkf] using this

theorem frames_step (h : s.Inv roots) (hs : Step roots s s') : s'.FramesOk := by
  have hf := h.frames
  cases hs with
  | @goto c q hg =>
    refine frames_keep hf rfl rfl rfl rfl rfl fun w x n stop f hc => ?_
    rw [hc] at hg
    cases hg
  | lockShared hq | unlockShared hq | lockExclusive hq | unlockExclusive hq | lockMutex hq
  | unlockMutex hq =>
    refine frames_keep hf rfl rfl rfl rfl rfl fun w x n stop f hc => ?_
    rw [hc] at hq
    cases hq
  | found hc | unlink hc | putUnmapped hc | putFault hc | alloc hc | place hc | noPlace hc
  | freeNew hc =>
    exact frames_keep hf rfl rfl rfl rfl rfl fun w x n stop f he => by simp [hc] at he
  | take hc _ _ hfr => exact h.frames_take hc hfr
  | store hc => exact h.frames_store hc
  | invalidate hc _ hfr => exact h.frames_invalidate hc hfr
  | free hc _ hfr => exact h.frames_free hc hfr
  | get | put | pass => exact frames_congr hf rfl rfl rfl rfl rfl
  | otherTake hh => exact frames_other hf (by simp [hh, FrameHolder.entries]) rfl (by simp)
  | otherFree hh => exact frames_other hf (by simp [hh, FrameHolder.entries]) rfl (by simp)

/-- Every step keeps the invariant. -/
theorem step (h : s.Inv roots) (hs : Step roots s s') : s'.Inv roots :=
  ⟨h.locks_step hs, h.refs_step hs, h.tree_step hs, h.pcs_step hs, h.leaves_step hs,
    h.frames_step hs⟩

end Inv

end VmarCores

end Tomato
