import Tomato.Mem.Vmar.CoresSteps

/-!
# The tree and the objects under the cores

The steps that link and unlink vmars, and those that allocate them and count their references.
-/

namespace Tomato

open Forest Tally

namespace VmarCores

variable {ι : Type*} {roots : Finset ℕ} {s s' : VmarCores ι} {c d e : ι}
  {q : VmarPc} {x y n m p f first : ℕ} {above : List ℕ} {kind : VmarKind}

/-- The regions above a vmar have children. -/
theorem Path.parent_of_mem (h : s.Path x above) : ∀ y ∈ above, ∃ z, s.parent z = some y := by
  induction above generalizing x with
  | nil => simp
  | cons p above ih => exact List.forall_mem_cons.mpr ⟨⟨x, h.1⟩, ih h.2⟩

theorem Path.pathAbove (h : s.Path x above) : s.PathAbove above := by
  cases above with
  | nil => trivial
  | cons p above => exact h.2

variable [Fintype ι] [DecidableEq ι]

namespace Inv

theorem pcs_unlink (h : s.Inv roots) (hc : s.pc c = .unmap .unlink x above) (d : ι) :
    ((s.unlink x).setPc c (.unmap .put x above)).PcOk roots d
      (((s.unlink x).setPc c (.unmap .put x above)).pc d) := by
  obtain ⟨h1, h2, -⟩ := h.pc_ok hc
  have hsame : ∀ y, Same s ((s.unlink x).setPc c (.unmap .put x above)) y := fun _ =>
    ⟨rfl, rfl, rfl⟩
  have hstays : ∀ y ≠ x, Stays s ((s.unlink x).setPc c (.unmap .put x above)) y := fun y hy =>
    ⟨Function.update_of_ne hy .., Function.update_of_ne hy ..⟩
  have habove : ∀ y ∈ above, y ≠ x := by
    rintro y hy rfl
    obtain ⟨z, hz⟩ := h1.parent_of_mem y hy
    exact h2 z hz
  refine pcs_moved rfl ?_ (fun d hd => ?_) d
  · exact ⟨Function.update_self .., Function.update_self ..,
      h1.pathAbove.frame (fun y _ => hsame y) fun y hy => hstays y (habove y hy)⟩
  · refine (h.pcs d).frame (fun y _ => hsame y) (fun y hy => hstays y ?_) (fun z _ y hy => ?_)
      (fun _ hh => hh) (fun _ _ => rfl) (fun _ _ _ hl => hl) (fun _ _ _ _ => rfl) fun _ hf => hf
    · rintro rfl
      exact h.not_pinned hc hd hy
    · by_cases hyx : y = x
      · subst hyx
        simp at hy
      · simpa [hyx] using hy

theorem pcs_putUnmapped (h : s.Inv roots) (hc : s.pc c = .unmap .put x above) (d : ι) :
    ((s.objectPut x).setPc c (VmarPc.unmapped above)).PcOk roots d
      (((s.objectPut x).setPc c (VmarPc.unmapped above)).pc d) := by
  obtain ⟨-, -, h3⟩ := h.pc_ok hc
  have hv : SameVmars s ((s.objectPut x).setPc c (VmarPc.unmapped above)) :=
    ⟨rfl, rfl, rfl, rfl, rfl⟩
  have href : (s.pc c).ref = some x := hc ▸ rfl
  refine pcs_moved (s := s) rfl ?_ (fun d hd => ?_) d
  · cases above with
    | nil => trivial
    | cons p above => exact hv.path h3
  · refine h.others_refs hd ⟨rfl, rfl, rfl, rfl, rfl⟩ rfl (Or.inr (Or.inr href)) (fun y hy => ?_)
      rfl rfl rfl
    simp [hy]

theorem pcs_putFault (h : s.Inv roots) (hc : s.pc c = .faultPut x) (d : ι) :
    ((s.objectPut x).setPc c .idle).PcOk roots d (((s.objectPut x).setPc c .idle).pc d) := by
  have href : (s.pc c).ref = some x := hc ▸ rfl
  refine pcs_moved (s := s) (q := .idle) rfl trivial (fun d hd => ?_) d
  refine h.others_refs hd ⟨rfl, rfl, rfl, rfl, rfl⟩ rfl (Or.inr (Or.inr href)) (fun y hy => ?_)
    rfl rfl rfl
  simp [hy]

/-- An idle core takes or drops a reference. -/
theorem pcs_handle (h : s.Inv roots) (d : ι) (hc : s.pc c = .idle) (hh : 0 < s.handles c x)
    (hv : SameVmars s s') (hpc : s'.pc = s.pc)
    (hs : s'.handles = Function.update s.handles c (Function.update (s.handles c) x n))
    (hr : ∀ y ≠ x, s'.refCount y = s.refCount y) (hm : s'.pageTableLock = s.pageTableLock)
    (hl : s'.leaf = s.leaf) (hf : s'.holder = s.holder) : s'.PcOk roots d (s'.pc d) := by
  rw [hpc]
  by_cases hd : d = c
  · rw [hd, hc]
    trivial
  · exact h.others_refs hd hv (by rw [hs, Function.update_of_ne hd]) (Or.inr (Or.inl hh)) hr hm hl hf

theorem pcs_pass (h : s.Inv roots) (hc : s.pc c = .idle) (he : e ≠ c) (d : ι) :
    ((s.setHandles c x n).setHandles e x (s.handles e x + 1)).PcOk roots d (s.pc d) := by
  by_cases hd : d = c
  · rw [hd, hc]
    trivial
  · refine (h.pcs d).frame (fun _ _ => ⟨rfl, rfl, rfl⟩) (fun _ _ => ⟨rfl, rfl⟩) (fun _ _ _ hy => hy)
      (fun y hy => ?_) (fun _ _ => rfl) (fun _ _ _ hl => hl) (fun _ _ _ _ => rfl) fun _ hf => hf
    by_cases hde : d = e
    · subst hde
      by_cases hyx : y = x
      · simp [hyx]
      · simpa [hyx, hd] using hy
    · simpa [hde, hd] using hy

omit [DecidableEq ι] in
theorem pcs_setHolder (h : s.Inv roots) {g : FrameHolder ι} (hf : ∀ d, s.holder f ≠ .core d)
    (d : ι) : (s.setHolder f g).PcOk roots d (s.pc d) := by
  refine (h.pcs d).congr ⟨rfl, rfl, rfl, rfl, rfl⟩ rfl (fun _ _ => rfl) (fun _ _ _ hl => hl)
    (fun _ _ _ _ => rfl) fun g hg => ?_
  have hgf : g ≠ f := by
    rintro rfl
    exact hf d hg
  simp [hgf, hg]

theorem pcs_alloc (h : s.Inv roots) (hpar : p ∈ roots ∨ 0 < s.handles c p)
    (hkp : s.kind p = .region) (hn : n ≠ 0) (hk : kind ≠ .special) (hx : x ∉ s.live) (d : ι) :
    ((s.newVmar x kind).setPc c (.mapLock p x n)).PcOk roots d
      (((s.newVmar x kind).setPc c (.mapLock p x n)).pc d) := by
  have hne : ∀ y, y ∈ roots ∨ s.Linked y → y ≠ x := by
    rintro y hy rfl
    exact hx (h.live_of_tree hy)
  have hpx : p ≠ x := by
    rintro rfl
    refine hx ((h.refs.live p).mpr (h.refs.refs_pos (c := c) ?_))
    exact hpar.imp_right fun hh => Or.inr (Or.inl hh)
  have hnone : s.parent x = none := by
    by_contra hl
    exact hne x (Or.inr hl) rfl
  refine pcs_moved rfl ?_ (fun d hd => ?_) d
  · refine ⟨⟨fun hr => hne x (Or.inl hr) rfl, hnone, fun y hy => ?_, Function.update_self .., ?_,
      Function.update_self ..⟩, hpar, ?_, hn⟩
    · exact hne x (h.tree.parent y x hy).2 rfl
    · simpa using hk
    · simpa [hpx] using hkp
  · have hmem : ∀ y ∈ (s.pc d).vmars, y ≠ x := by
      rintro y hy rfl
      exact hx (h.live_of_mem hy)
    refine (h.pcs d).frame (fun y hy => ?_) (fun y hy => ?_) (fun _ _ _ hy => hy)
      (fun _ hh => hh) (fun y hy => ?_) (fun _ _ _ hl => hl) (fun _ _ _ _ => rfl) fun _ hf => hf
    · exact ⟨Function.update_of_ne (hmem y hy) .., rfl, rfl⟩
    · exact ⟨rfl, Function.update_of_ne (hmem y (VmarPc.mem_vmars_of_pinned hy)) ..⟩
    · exact Function.update_of_ne (hmem y (VmarPc.mem_vmars_of_made hy)) ..

theorem pcs_place (h : s.Inv roots) (hc : s.pc c = .mapPlace p x n) (d : ι) :
    (((s.link x p first n).setHandles c x 1).setPc c .treeUnlock).PcOk roots d
      ((((s.link x p first n).setHandles c x 1).setPc c .treeUnlock).pc d) := by
  obtain ⟨hnew, hpar, hkp, -⟩ := h.pc_ok hc
  have hmade : (s.pc c).made = some x := hc ▸ rfl
  have hex : 0 < (s.pc c).exclusive := by
    rw [hc]
    exact Nat.one_pos
  refine pcs_moved (s := s) (q := .treeUnlock) rfl trivial (fun d hd => ?_) d
  have hmem : ∀ y ∈ (s.pc d).vmars, y ≠ x := fun y hy => h.ne_of_made hmade hd hy
  refine (h.pcs d).frame (fun y hy => ?_) (fun y hy => ?_) (fun z hz y hy => ?_) (fun y hh => ?_)
    (fun _ _ => rfl) (fun _ _ _ hl => hl) (fun _ _ _ _ => rfl) fun _ hf => hf
  · exact ⟨rfl, Function.update_of_ne (hmem y hy) .., Function.update_of_ne (hmem y hy) ..⟩
  · exact ⟨Function.update_of_ne (hmem y (VmarPc.mem_vmars_of_pinned hy)) .., rfl⟩
  · by_cases hyx : y = x
    · subst hyx
      obtain rfl : p = z := by simpa using hy
      -- the new parent is a region that the core knows, and in nobody else's hands
      rcases hz with hz | ⟨-, hm | ⟨above, ha⟩⟩
      · have hnz := (h.pcs d).new_of_made hz
        rcases hpar with hr | hh
        · exact absurd hr hnz.root
        · have := (h.alone hz c).1
          omega
      · have := (h.pcs d).kind_of_mutex hm
        simp [hkp] at this
      · refine absurd (h.locks.eq_of_exclusive (c := d) ?_ hex) hd
        rw [ha]
        exact Nat.one_pos
    · simpa [hyx] using hy
  · simpa [hd] using hh

theorem pcs_freeNew (h : s.Inv roots) (hc : s.pc c = .mapFree x) (d : ι) :
    ((s.freeVmar x).setPc c .idle).PcOk roots d (((s.freeVmar x).setPc c .idle).pc d) := by
  have hmade : (s.pc c).made = some x := hc ▸ rfl
  refine pcs_moved (s := s) (q := .idle) rfl trivial (fun d hd => ?_) d
  refine h.others hd ⟨rfl, rfl, rfl, rfl, rfl⟩ rfl (fun y hy => ?_) (fun _ _ _ hl => hl)
    (fun _ => Or.inl rfl) fun _ hf => hf
  have hyx : y ≠ x := h.ne_of_made hmade hd (VmarPc.mem_vmars_of_made hy)
  simp [hyx]

/-- A step that changes no more than where the core is, and the lock of the tree. -/
theorem pcs_same (h : s.Inv roots) (d : ι) (hq : s.PcOk roots c q) (hpc : s'.pc = Function.update s.pc c q)
    (hv : SameVmars s s') (hh : s'.handles = s.handles) (hr : s'.refCount = s.refCount)
    (hm : s'.pageTableLock = s.pageTableLock) (hl : s'.leaf = s.leaf)
    (hf : s'.holder = s.holder) : s'.PcOk roots d (s'.pc d) := by
  have hkeep : ∀ {e : ι} {q : VmarPc}, s.PcOk roots e q → s'.PcOk roots e q := fun hq =>
    hq.congr hv (by rw [hh]) (fun _ _ => by rw [hr]) (fun _ _ _ hx => hm ▸ hx)
      (fun _ _ _ _ => by rw [hl]) fun _ hx => hf ▸ hx
  exact pcs_moved hpc (hkeep hq) (fun e _ => hkeep (h.pcs e)) d

/-- Every step keeps what the cores rely on. -/
theorem pcs_step (h : s.Inv roots) (hs : Step roots s s') (d : ι) :
    s'.PcOk roots d (s'.pc d) := by
  cases hs with
  | goto hg =>
    exact h.pcs_same d (h.pcs_goto hg) rfl ⟨rfl, rfl, rfl, rfl, rfl⟩ rfl rfl rfl rfl rfl
  | lockShared hq =>
    exact h.pcs_same d (h.pcs_lockShared hq) rfl ⟨rfl, rfl, rfl, rfl, rfl⟩ rfl rfl rfl rfl rfl
  | unlockShared hq =>
    exact h.pcs_same d (h.pcs_unlockShared hq) rfl ⟨rfl, rfl, rfl, rfl, rfl⟩ rfl rfl rfl rfl rfl
  | lockExclusive hq =>
    exact h.pcs_same d (h.pcs_lockExclusive hq) rfl ⟨rfl, rfl, rfl, rfl, rfl⟩ rfl rfl rfl rfl rfl
  | unlockExclusive hq =>
    exact h.pcs_same d (h.pcs_unlockExclusive hq) rfl ⟨rfl, rfl, rfl, rfl, rfl⟩ rfl rfl rfl rfl rfl
  | lockMutex hq hm => exact h.pcs_lockMutex hq d
  | unlockMutex hq => exact h.pcs_unlockMutex hq d
  | found hc hb hk hn => exact h.pcs_found hc hb hk hn d
  | take hc hn he hf => exact h.pcs_take hc hn he hf d
  | store hc => exact h.pcs_store hc d
  | invalidate hc hi hf => exact h.pcs_invalidate hc hi d
  | free hc hi hf => exact h.pcs_free hc hi hf d
  | unlink hc => exact h.pcs_unlink hc d
  | putUnmapped hc => exact h.pcs_putUnmapped hc d
  | putFault hc => exact h.pcs_putFault hc d
  | alloc hc hpar hkp hn hk hx => exact h.pcs_alloc hpar hkp hn hk hx d
  | place hc hu hf => exact h.pcs_place hc d
  | noPlace hc =>
    exact h.pcs_same d (q := .mapFail _) (h.pc_ok hc).1 rfl ⟨rfl, rfl, rfl, rfl, rfl⟩ rfl rfl rfl
      rfl rfl
  | freeNew hc => exact h.pcs_freeNew hc d
  | get hc hh | put hc hh =>
    exact h.pcs_handle d hc hh ⟨rfl, rfl, rfl, rfl, rfl⟩ rfl rfl
      (fun y hy => Function.update_of_ne hy ..) rfl rfl rfl
  | pass hc hh he => exact h.pcs_pass hc he d
  | otherTake hf | otherFree hf => exact h.pcs_setHolder (by simp [hf]) d

end Inv

end VmarCores

end Tomato
