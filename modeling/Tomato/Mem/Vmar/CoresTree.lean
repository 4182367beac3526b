import Tomato.Mem.Vmar.CoresCalls

/-!
# The invariant of the cores

Every step keeps the words of the locks, the reference counts, the tree, the leaf entries and the
frames right. With `Inv.pcs_step` it keeps the whole invariant.
-/

namespace Tomato

open Forest Tally

namespace VmarCores

variable {ι : Type*} {roots : Finset ℕ} {s s' : VmarCores ι} {c d e : ι}
  {q : VmarPc} {x y n m p f first : ℕ} {above : List ℕ} {kind : VmarKind}

theorem treeRefs_congr (h : s'.parent x = s.parent x) : s'.treeRefs roots x = s.treeRefs roots x :=
  if_congr (by rw [Linked, Linked, h]) rfl rfl

theorem treeRefs_of_linked (h : s.Linked x) : s.treeRefs roots x = 1 := if_pos (Or.inr h)

theorem treeRefs_of_unlinked (hr : x ∉ roots) (h : s.parent x = none) :
    s.treeRefs roots x = 0 := if_neg (by simp [hr, Linked, h])

variable [Fintype ι] [DecidableEq ι]

namespace Inv

theorem locks_step (h : s.Inv roots) (hs : Step roots s s') : s'.LocksOk := by
  have hl := h.locks
  cases hs with
  | goto hg =>
    obtain ⟨h1, h2, h3, -, -⟩ := hg.counts
    exact hl.keep rfl rfl rfl rfl h1 h2 h3
  | lockShared hq hw =>
    obtain ⟨h1, h2, h3, h4, -, -⟩ := VmarPc.beforeShared_counts hq
    refine hl.moved rfl ?_ ?_ (fun hc => ?_) fun x => ?_
    · simp only
      omega
    · simp [h3]
    · simp [hw] at hc
    · simp [VmarPc.mutexes_congr h4]
  | unlockShared hq =>
    obtain ⟨h1, h2, h3, h4, -, -⟩ := VmarPc.afterShared_counts hq
    have hr := hl.readers_of_shared (by rw [h1]; exact Nat.one_pos)
    refine hl.moved rfl ?_ ?_ (fun hc => ?_) fun x => ?_
    · simp only
      omega
    · simp [h3]
    · exact absurd (hl.apart hc) hr
    · simp [VmarPc.mutexes_congr h4]
  | lockExclusive hq hr hw =>
    obtain ⟨h1, h2, h3, h4, -, -⟩ := VmarPc.beforeExclusive_counts hq
    refine hl.moved rfl ?_ ?_ (fun _ => hr) fun x => ?_
    · simp [h3]
    · simp [h1, h2, hw]
    · simp [VmarPc.mutexes_congr h4]
  | unlockExclusive hq =>
    obtain ⟨h1, h2, h3, h4, -, -⟩ := VmarPc.afterExclusive_counts hq
    have hw := hl.writer_of_exclusive (by rw [h1]; exact Nat.one_pos)
    refine hl.moved rfl ?_ ?_ (fun hc => by simp at hc) fun x => ?_
    · simp [h3]
    · simp [h1, h2, hw]
    · simp [VmarPc.mutexes_congr h4]
  | @lockMutex c x q hq hm =>
    obtain ⟨h1, h2, h3, h4, -, -⟩ := VmarPc.beforeMutex_counts hq
    refine hl.moved rfl ?_ ?_ hl.apart fun y => ?_
    · simp [h3]
    · simp [h4]
    · by_cases hyx : y = x
      · subst hyx
        simp [VmarPc.mutexes, h1, h2, hm]
      · simp [VmarPc.mutexes, h1, h2, hyx, Ne.symm hyx]
  | @unlockMutex c x q hq =>
    obtain ⟨h1, h2, h3, h4, -, -⟩ := VmarPc.afterMutex_counts hq
    have hm := hl.lock_of_mutex h1
    refine hl.moved rfl ?_ ?_ hl.apart fun y => ?_
    · simp [h3]
    · simp [h4]
    · by_cases hyx : y = x
      · subst hyx
        simp [VmarPc.mutexes, h1, h2, hm]
      · simp [VmarPc.mutexes, h1, h2, hyx, Ne.symm hyx]
  | found hc | invalidate hc | free hc | unlink hc | putFault hc | alloc hc | place hc | noPlace hc
  | freeNew hc => exact hl.keep rfl rfl rfl rfl (hc ▸ rfl) (hc ▸ rfl) (hc ▸ rfl)
  | @take c w _ _ _ _ hc | @store c w _ _ _ _ hc =>
    exact hl.keep rfl rfl rfl rfl (by rw [hc]; cases w <;> rfl) (hc ▸ rfl) (hc ▸ rfl)
  | @putUnmapped c x above hc =>
    obtain ⟨h1, h2, h3, -, -⟩ := VmarPc.unmapped_counts above
    exact hl.keep rfl rfl rfl rfl (hc ▸ h2) (hc ▸ h1) (hc ▸ h3)
  | get | put | pass | otherTake | otherFree => exact hl.congr rfl rfl rfl rfl

/-- The references to a vmar that stays where it is. -/
theorem refs_moved_of_parent (h : s.RefsOk roots) {g : ℕ → ℕ}
    (hpc : s'.pc = Function.update s.pc c q) (hh : s'.handles = Function.update s.handles c g)
    (hp : s'.parent x = s.parent x)
    (he : s'.refCount x + (s.handles c x + (s.pc c).refs x) = s.refCount x + (g x + q.refs x)) :
    s'.refCount x = s'.treeRefs roots x +
      (tally (fun h => h x) s'.handles + tally (VmarPc.refs x) s'.pc) := by
  refine h.refs_moved hpc hh ?_
  rw [treeRefs_congr hp]
  omega

/-- The vmars stay where they are, and the references are those of the core that moves. -/
theorem refs_counted (h : s.RefsOk roots) {g : ℕ → ℕ} (hpc : s'.pc = Function.update s.pc c q)
    (hh : s'.handles = Function.update s.handles c g) (hp : s'.parent = s.parent)
    (hk : s'.kind = s.kind) (hu : s'.unmapped = s.unmapped)
    (he : ∀ y, s'.refCount y + (s.handles c y + (s.pc c).refs y) =
      s.refCount y + (g y + q.refs y))
    (hl : ∀ y, y ∈ s'.live ↔ s'.refCount y ≠ 0) (hlive : s'.live ⊆ s.live)
    (hg : ∀ y, 0 < g y → 0 < s.handles c y) (hm : q.made = (s.pc c).made) : s'.RefsOk roots := by
  refine ⟨fun y => ?_, hl, fun d y hy => ?_, fun y hy hr hn hun => ?_⟩
  · exact refs_moved_of_parent h hpc hh (by rw [hp]) (he y)
  · rw [hk]
    rw [hh] at hy
    by_cases hd : d = c
    · subst hd
      rw [Function.update_self] at hy
      exact h.handle d y (hg y hy)
    · rw [Function.update_of_ne hd] at hy
      exact h.handle d y hy
  · obtain ⟨d, hd⟩ := h.unlinked y (hlive hy) hr (hp ▸ hn) (hu ▸ hun)
    refine ⟨d, ?_⟩
    rw [hpc]
    by_cases hdc : d = c
    · subst hdc
      rw [Function.update_self, hm, hd]
    · rw [Function.update_of_ne hdc, hd]

/-- No references change. -/
theorem refs_keep (h : s.RefsOk roots) (hpc : s'.pc = Function.update s.pc c q)
    (hh : s'.handles = s.handles) (hp : s'.parent = s.parent) (hk : s'.kind = s.kind)
    (hu : s'.unmapped = s.unmapped) (hc : s'.refCount = s.refCount) (hl : s'.live = s.live)
    (hr : q.ref = (s.pc c).ref) (hm : q.made = (s.pc c).made) : s'.RefsOk roots := by
  refine refs_counted h hpc (g := s.handles c) ?_ hp hk hu (fun y => ?_) (fun y => ?_) hl.le
    (fun _ hy => hy) hm
  · rw [hh, Function.update_eq_self]
  · rw [hc, VmarPc.refs_congr hr hm]
  · rw [hl, hc]
    exact h.live y

omit [DecidableEq ι] in
/-- The count of the reference that is dropped. -/
theorem objectPut_counts (h : s.RefsOk roots) (hx : s.refCount x ≠ 0) (y : ℕ) :
    ((s.objectPut x).refCount y + if x = y then 1 else 0) = s.refCount y ∧
      (y ∈ (s.objectPut x).live ↔ (s.objectPut x).refCount y ≠ 0) ∧
      (s.objectPut x).live ⊆ s.live := by
  have hl := h.live y
  refine ⟨?_, ?_, ?_⟩
  · by_cases hxy : x = y
    · subst hxy
      simp only [objectPut_refCount, Function.update_self, if_true]
      omega
    · simp [hxy, Ne.symm hxy]
  · by_cases hyx : y = x
    · subst hyx
      by_cases h1 : s.refCount y = 1
      · simp [h1]
      · simp only [objectPut_live, if_neg h1, objectPut_refCount, Function.update_self, hl]
        omega
    · by_cases h1 : s.refCount x = 1 <;> simp [h1, hyx, hl]
  · rw [objectPut_live]
    split
    · exact Set.sdiff_subset
    · exact subset_rfl

theorem refs_found (h : s.Inv roots) (hc : s.pc c = .find p n) (hb : Below s.parent x p)
    (hk : s.kind x = .mapping) : ((s.objectGet x).setPc c (.findMutex x n)).RefsOk roots := by
  have hx : s.Linked x := by
    rcases Relation.ReflTransGen.cases_head hb with rfl | ⟨y, hy, -⟩
    · simp [(h.tree.root x (h.pc_ok hc)).1] at hk
    · simp [Linked, hy]
  have hlive := h.live_of_tree (Or.inr hx)
  refine refs_counted h.refs (c := c) (q := .findMutex x n) (g := s.handles c) rfl ?_ rfl rfl rfl
    (fun y => ?_) (fun y => ?_) subset_rfl (fun _ hy => hy) (hc ▸ rfl)
  · exact (Function.update_eq_self ..).symm
  · by_cases hxy : x = y
    · subst hxy
      simp [hc, VmarPc.refs, VmarPc.ref, VmarPc.made]
      omega
    · simp [hc, VmarPc.refs, VmarPc.ref, VmarPc.made, hxy, Ne.symm hxy]
  · by_cases hyx : y = x
    · subst hyx
      simpa using hlive
    · simpa [hyx] using h.refs.live y

/-- The core drops the reference that its call has. -/
theorem refs_put (h : s.Inv roots) (hx : (s.pc c).ref = some x) (hm : (s.pc c).made = none)
    (hq : q.ref = none) (hqm : q.made = none) : ((s.objectPut x).setPc c q).RefsOk roots := by
  have hpos : s.refCount x ≠ 0 := by
    refine h.refs.refs_pos (c := c) (Or.inr (Or.inr (Or.inr ?_)))
    exact VmarPc.refs_pos_of_ref hx
  refine refs_counted h.refs (c := c) (q := q) (g := s.handles c) rfl ?_ rfl rfl rfl (fun y => ?_)
    (fun y => (objectPut_counts h.refs hpos y).2.1) (objectPut_counts h.refs hpos 0).2.2
    (fun _ hy => hy) (hqm.trans hm.symm)
  · exact (Function.update_eq_self ..).symm
  · have := (objectPut_counts h.refs hpos y).1
    simp only [VmarPc.refs, hx, hm, hq, hqm, Option.some.injEq, reduceCtorEq, if_false, setPc_refCount]
    omega

theorem refs_get (h : s.Inv roots) (hh : 0 < s.handles c x) :
    ((s.objectGet x).setHandles c x (s.handles c x + 1)).RefsOk roots := by
  have hpos : s.refCount x ≠ 0 := h.refs.refs_pos (Or.inr (Or.inr (Or.inl hh)))
  refine refs_counted h.refs (c := c) (q := s.pc c)
    (g := Function.update (s.handles c) x (s.handles c x + 1)) ?_ rfl rfl rfl rfl
    (fun y => ?_) (fun y => ?_) subset_rfl (fun y hy => ?_) rfl
  · exact (Function.update_eq_self ..).symm
  · by_cases hyx : y = x
    · subst hyx
      simp
      omega
    · simp [hyx]
  · by_cases hyx : y = x
    · subst hyx
      simpa using (h.refs.live y).mpr hpos
    · simpa [hyx] using h.refs.live y
  · by_cases hyx : y = x
    · exact hyx ▸ hh
    · simpa [hyx] using hy

theorem refs_drop (h : s.Inv roots) (hh : 0 < s.handles c x) :
    ((s.objectPut x).setHandles c x (s.handles c x - 1)).RefsOk roots := by
  have hpos : s.refCount x ≠ 0 := h.refs.refs_pos (Or.inr (Or.inr (Or.inl hh)))
  refine refs_counted h.refs (c := c) (q := s.pc c)
    (g := Function.update (s.handles c) x (s.handles c x - 1)) ?_ rfl rfl rfl rfl (fun y => ?_)
    (fun y => (objectPut_counts h.refs hpos y).2.1) (objectPut_counts h.refs hpos 0).2.2
    (fun y hy => ?_) rfl
  · exact (Function.update_eq_self ..).symm
  · have := (objectPut_counts h.refs hpos y).1
    by_cases hyx : y = x
    · subst hyx
      simp only [if_true, setHandles_refCount, Function.update_self] at this ⊢
      omega
    · simp only [if_neg (Ne.symm hyx), setHandles_refCount, Function.update_of_ne hyx] at this ⊢
      omega
  · by_cases hyx : y = x
    · exact hyx ▸ hh
    · simpa [hyx] using hy

theorem refs_pass (h : s.Inv roots) (hh : 0 < s.handles c x) (he : e ≠ c) :
    ((s.setHandles c x (s.handles c x - 1)).setHandles e x (s.handles e x + 1)).RefsOk roots := by
  have hhandles : ((s.setHandles c x (s.handles c x - 1)).setHandles e x (s.handles e x + 1)).handles =
      Function.update (Function.update s.handles c
        (Function.update (s.handles c) x (s.handles c x - 1))) e
        (Function.update (s.handles e) x (s.handles e x + 1)) := by
    simp only [setHandles, Function.update_of_ne he]
  refine ⟨fun y => ?_, h.refs.live, fun d y hy => ?_, h.refs.unlinked⟩
  · have h1 := tally_update (fun h : ℕ → ℕ => h y) s.handles c
      (Function.update (s.handles c) x (s.handles c x - 1))
    have h2 := tally_update (fun h : ℕ → ℕ => h y)
      (Function.update s.handles c (Function.update (s.handles c) x (s.handles c x - 1))) e
      (Function.update (s.handles e) x (s.handles e x + 1))
    have h3 := h.refs.refs y
    rw [Function.update_of_ne he] at h2
    have ht : ((s.setHandles c x (s.handles c x - 1)).setHandles e x
        (s.handles e x + 1)).treeRefs roots y = s.treeRefs roots y := treeRefs_congr rfl
    rw [hhandles, ht]
    change s.refCount y = _ + (_ + tally (VmarPc.refs y) s.pc)
    by_cases hyx : y = x
    · subst hyx
      simp only [Function.update_self] at h1 h2
      omega
    · simp only [Function.update_of_ne hyx] at h1 h2
      omega
  · have hx := h.refs.handle c x hh
    rw [hhandles] at hy
    by_cases hyx : y = x
    · exact hyx ▸ hx
    · refine h.refs.handle d y ?_
      by_cases hde : d = e
      · subst hde
        simpa [hyx] using hy
      · by_cases hdc : d = c
        · subst hdc
          simpa [hde, hyx] using hy
        · simpa [hde, hdc] using hy

theorem refs_alloc (h : s.Inv roots) (hc : s.pc c = .idle)
    (hx : x ∉ s.live) : ((s.newVmar x kind).setPc c (.mapLock p x n)).RefsOk roots := by
  have hzero : s.refCount x = 0 := by
    by_contra hne
    exact hx ((h.refs.live x).mpr hne)
  have hhandle : ∀ d, s.handles d x = 0 := fun d => by
    by_contra hne
    exact h.refs.refs_pos (c := d) (Or.inr (Or.inr (Or.inl (Nat.pos_of_ne_zero hne)))) hzero
  refine ⟨fun y => ?_, fun y => ?_, fun d y hy => ?_, fun y hy hr hn hu => ?_⟩
  · refine refs_moved_of_parent h.refs (c := c) (q := .mapLock p x n) (g := s.handles c) rfl ?_ rfl ?_
    · exact (Function.update_eq_self ..).symm
    · rw [hc]
      by_cases hyx : y = x
      · subst hyx
        simp [VmarPc.refs, VmarPc.ref, VmarPc.made, hzero]
        omega
      · simp [VmarPc.refs, VmarPc.ref, VmarPc.made, hyx, Ne.symm hyx]
  · by_cases hyx : y = x
    · subst hyx
      simp
    · simpa [hyx] using h.refs.live y
  · have hyx : y ≠ x := by
      rintro rfl
      have := hhandle d
      exact absurd hy (by simp [this])
    simpa [hyx] using h.refs.handle d y hy
  · by_cases hyx : y = x
    · exact ⟨c, by simp [hyx, VmarPc.made]⟩
    · obtain ⟨d, hd⟩ := h.refs.unlinked y (by simpa [hyx] using hy) hr hn (by simpa [hyx] using hu)
      have hdc : d ≠ c := by
        rintro rfl
        simp [hc, VmarPc.made] at hd
      exact ⟨d, by simpa [hdc] using hd⟩

theorem refs_place (h : s.Inv roots) (hc : s.pc c = .mapPlace p x n) :
    (((s.link x p first n).setHandles c x 1).setPc c .treeUnlock).RefsOk roots := by
  have hnew := (h.pc_ok hc).1
  have hmade : (s.pc c).made = some x := hc ▸ rfl
  have hzero := (h.alone hmade c).1
  refine ⟨fun y => ?_, h.refs.live, fun d y hy => ?_, fun y hy hr hn hu => ?_⟩
  · by_cases hyx : y = x
    · subst hyx
      refine h.refs.refs_moved (c := c) (q := .treeUnlock)
        (g := Function.update (s.handles c) y 1) rfl rfl ?_
      rw [treeRefs_of_unlinked hnew.root hnew.unlinked, treeRefs_of_linked (by simp [Linked]), hc]
      simp [VmarPc.refs, VmarPc.ref, VmarPc.made, hzero]
    · refine refs_moved_of_parent h.refs (c := c) (q := .treeUnlock)
        (g := Function.update (s.handles c) x 1) rfl rfl (by simp [hyx]) ?_
      rw [hc]
      simp [VmarPc.refs, VmarPc.ref, VmarPc.made, hyx, Ne.symm hyx]
  · by_cases hyx : y = x
    · subst hyx
      exact ⟨hnew.root, hnew.kind⟩
    · refine h.refs.handle d y ?_
      by_cases hdc : d = c
      · subst hdc
        simpa [hyx] using hy
      · simpa [hdc] using hy
  · have hyx : y ≠ x := by
      rintro rfl
      simp at hn
    obtain ⟨d, hd⟩ := h.refs.unlinked y hy hr (by simpa [hyx] using hn) hu
    have hdc : d ≠ c := by
      rintro rfl
      exact hyx (Option.some.inj (hd.symm.trans hmade))
    exact ⟨d, by simpa [hdc] using hd⟩

theorem refs_unlink (h : s.Inv roots) (hc : s.pc c = .unmap .unlink x above) :
    ((s.unlink x).setPc c (.unmap .put x above)).RefsOk roots := by
  have hlinked : s.Linked x := Path.linked (h.pc_ok hc).1 x List.mem_cons_self
  have hroot := (h.tree.linked x hlinked).1
  refine ⟨fun y => ?_, h.refs.live, h.refs.handle, fun y hy hr hn hu => ?_⟩
  · have hh : s.handles = Function.update s.handles c (s.handles c) :=
      (Function.update_eq_self ..).symm
    by_cases hyx : y = x
    · subst hyx
      refine h.refs.refs_moved (c := c) (q := .unmap .put y above) rfl hh ?_
      rw [treeRefs_of_linked hlinked, treeRefs_of_unlinked hroot (by simp), hc]
      simp [VmarPc.refs, VmarPc.ref, VmarPc.made]
      omega
    · refine refs_moved_of_parent h.refs (c := c) (q := .unmap .put x above) rfl hh
        (by simp [hyx]) ?_
      rw [hc]
      simp [VmarPc.refs, VmarPc.ref, VmarPc.made, Ne.symm hyx]
  · have hyx : y ≠ x := by
      rintro rfl
      simp at hu
    obtain ⟨d, hd⟩ := h.refs.unlinked y hy hr (by simpa [hyx] using hn) (by simpa [hyx] using hu)
    have hdc : d ≠ c := by
      rintro rfl
      simp [hc, VmarPc.made] at hd
    exact ⟨d, by simpa [hdc] using hd⟩

theorem refs_freeNew (h : s.Inv roots) (hc : s.pc c = .mapFree x) :
    ((s.freeVmar x).setPc c .idle).RefsOk roots := by
  have hnew : s.New roots x := h.pc_ok hc
  have hmade : (s.pc c).made = some x := hc ▸ rfl
  refine ⟨fun y => ?_, fun y => ?_, h.refs.handle, fun y hy hr hn hu => ?_⟩
  · refine refs_moved_of_parent h.refs (c := c) (q := .idle) (g := s.handles c) rfl ?_ rfl ?_
    · exact (Function.update_eq_self ..).symm
    · rw [hc]
      by_cases hyx : y = x
      · subst hyx
        simp [VmarPc.refs, VmarPc.ref, VmarPc.made, hnew.refCount]
        omega
      · simp [VmarPc.refs, VmarPc.ref, VmarPc.made, hyx, Ne.symm hyx]
  · by_cases hyx : y = x
    · simp [hyx]
    · simpa [hyx] using h.refs.live y
  · obtain ⟨d, hd⟩ := h.refs.unlinked y hy.1 hr hn hu
    have hdc : d ≠ c := by
      rintro rfl
      exact hy.2 (Option.some.inj (hd.symm.trans hmade))
    exact ⟨d, by simpa [hdc] using hd⟩

theorem refs_step (h : s.Inv roots) (hs : Step roots s s') : s'.RefsOk roots := by
  have hr := h.refs
  cases hs with
  | goto hg =>
    obtain ⟨-, -, -, h4, h5⟩ := hg.counts
    exact refs_keep hr rfl rfl rfl rfl rfl rfl rfl h4 h5
  | lockShared hq =>
    obtain ⟨-, -, -, -, h4, h5⟩ := VmarPc.beforeShared_counts hq
    exact refs_keep hr rfl rfl rfl rfl rfl rfl rfl h4 h5
  | unlockShared hq =>
    obtain ⟨-, -, -, -, h4, h5⟩ := VmarPc.afterShared_counts hq
    exact refs_keep hr rfl rfl rfl rfl rfl rfl rfl h4 h5
  | lockExclusive hq =>
    obtain ⟨-, -, -, -, h4, h5⟩ := VmarPc.beforeExclusive_counts hq
    exact refs_keep hr rfl rfl rfl rfl rfl rfl rfl h4 h5
  | unlockExclusive hq =>
    obtain ⟨-, -, -, -, h4, h5⟩ := VmarPc.afterExclusive_counts hq
    exact refs_keep hr rfl rfl rfl rfl rfl rfl rfl h4 h5
  | lockMutex hq =>
    obtain ⟨-, -, -, -, h4, h5⟩ := VmarPc.beforeMutex_counts hq
    exact refs_keep hr rfl rfl rfl rfl rfl rfl rfl h4 h5
  | unlockMutex hq =>
    obtain ⟨-, -, -, -, h4, h5⟩ := VmarPc.afterMutex_counts hq
    exact refs_keep hr rfl rfl rfl rfl rfl rfl rfl h4 h5
  | found hc hb hk => exact h.refs_found hc hb hk
  | @take c w _ _ _ _ hc | @store c w _ _ _ _ hc =>
    exact refs_keep hr rfl rfl rfl rfl rfl rfl rfl (by rw [hc]; cases w <;> rfl) (hc ▸ rfl)
  | invalidate hc | free hc | noPlace hc =>
    exact refs_keep hr rfl rfl rfl rfl rfl rfl rfl (hc ▸ rfl) (hc ▸ rfl)
  | unlink hc => exact h.refs_unlink hc
  | putUnmapped hc =>
    obtain ⟨-, -, -, h4, h5⟩ := VmarPc.unmapped_counts _
    exact h.refs_put (hc ▸ rfl) (hc ▸ rfl) h4 h5
  | putFault hc => exact h.refs_put (hc ▸ rfl) (hc ▸ rfl) rfl rfl
  | alloc hc _ _ _ _ hx => exact h.refs_alloc hc hx
  | place hc => exact h.refs_place hc
  | freeNew hc => exact h.refs_freeNew hc
  | get _ hh => exact h.refs_get hh
  | put _ hh => exact h.refs_drop hh
  | pass _ hh he => exact h.refs_pass hh he
  | otherTake | otherFree => exact ⟨hr.refs, hr.live, hr.handle, hr.unlinked⟩

end Inv

end VmarCores

end Tomato
