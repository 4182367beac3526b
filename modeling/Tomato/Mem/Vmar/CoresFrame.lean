import Tomato.Mem.Vmar.CoresLocks

/-!
# What the other cores may do

`PcOk.frame` is what a core needs of the steps of the others: the vmars it goes on with stay
what they are, those that are pinned keep their places, and nobody else changes the leaf entries
of a mapping that it has locked.
-/

namespace Tomato

open Forest Tally

namespace VmarCores

variable {ι : Type*} {roots : Finset ℕ} {s s' : VmarCores ι} {c d : ι}
  {q : VmarPc} {x y n m p stop : ℕ} {above : List ℕ} {phase : UnmapPhase}

/-- The vmar is still what it was. -/
structure Same (s s' : VmarCores ι) (x : ℕ) : Prop where
  kind : s'.kind x = s.kind x
  firstPage : s'.firstPage x = s.firstPage x
  pageCount : s'.pageCount x = s.pageCount x

/-- It is where it was in the tree. -/
structure Stays (s s' : VmarCores ι) (x : ℕ) : Prop where
  parent : s'.parent x = s.parent x
  unmapped : s'.unmapped x = s.unmapped x

/-- The vmar is in the tree, and the core holds its lock or gave it back to unlink it. -/
def Owns (q : VmarPc) (x : ℕ) : Prop :=
  x ∈ q.pinned ∧ (q.mutex = some x ∨ ∃ above, q = .unmap .unlink x above)

theorem Same.pages (h : Same s s' x) : s'.pages x = s.pages x := by
  rw [VmarCores.pages, VmarCores.pages, h.firstPage, h.pageCount]

theorem Covers.frame (h : s.Covers x n stop) (hs : Same s s' x) (hp : Stays s s' x) :
    s'.Covers x n stop := by
  refine ⟨?_, hs.kind.trans h.kind, hs.pages ▸ h.pages⟩
  rw [Linked, hp.parent]
  exact h.linked

theorem Path.frame (h : s.Path x above) (hs : ∀ y ∈ x :: above, Same s s' y)
    (hp : ∀ y ∈ x :: above, Stays s s' y) : s'.Path x above := by
  induction above generalizing x with
  | nil =>
    refine ⟨?_, ?_⟩
    · rw [Linked, (hp x List.mem_cons_self).parent]
      exact h.1
    · rw [(hs x List.mem_cons_self).kind]
      exact h.2
  | cons p above ih =>
    refine ⟨(hp x List.mem_cons_self).parent.trans h.1, ih h.2 ?_ ?_⟩
    · exact fun y hy => hs y (List.mem_cons_of_mem x hy)
    · exact fun y hy => hp y (List.mem_cons_of_mem x hy)

theorem PathAbove.frame (h : s.PathAbove above) (hs : ∀ y ∈ above, Same s s' y)
    (hp : ∀ y ∈ above, Stays s s' y) : s'.PathAbove above := by
  cases above with
  | nil => trivial
  | cons p above => exact Path.frame h hs hp

theorem Path.linked (h : s.Path x above) : ∀ y ∈ x :: above, s.Linked y := by
  induction above generalizing x with
  | nil => simpa using h.1
  | cons p above ih =>
    refine List.forall_mem_cons.mpr ⟨?_, ih h.2⟩
    rw [Linked, h.1]
    exact Option.some_ne_none p

theorem PathAbove.linked (h : s.PathAbove above) : ∀ y ∈ above, s.Linked y := by
  cases above with
  | nil => simp
  | cons p above => exact Path.linked h

theorem New.frame (h : s.New roots x) (hs : Same s s' x) (hp : Stays s s' x)
    (hc : ∀ y, s'.parent y = some x → s.parent y = some x) (hr : s'.refCount x = s.refCount x) :
    s'.New roots x :=
  ⟨h.root, hp.parent.trans h.unlinked, fun y hy => h.childless y (hc y hy),
    hp.unmapped.trans h.unmapped, hs.kind ▸ h.kind, hr.trans h.refCount⟩

theorem UnmapOk.frame (h : s.UnmapOk x above phase)
    (hs : ∀ y ∈ x :: above, Same s s' y) (hp : ∀ y ∈ x :: above, Stays s s' y)
    (hc : phase = .unlink → ∀ y, s'.parent y = some x → s.parent y = some x)
    (hm : phase = .unlink → s.pageTableLock x = false → s'.pageTableLock x = false)
    (hl : Owns (.unmap phase x above) x → ∀ n ∈ s.pages x, s'.leaf n = s.leaf n) :
    s'.UnmapOk x above phase := by
  have hsx := hs x List.mem_cons_self
  cases phase with
  | enter => exact h.frame hs hp
  | lock => exact ⟨h.1.frame hs hp, hsx.kind.trans h.2⟩
  | invalidate i =>
    refine ⟨h.1.frame hs hp, hsx.kind.trans h.2.1, fun n hn => ?_⟩
    rw [hsx.pages] at hn
    rw [hl ⟨List.mem_cons_self, Or.inl rfl⟩ n hn, hsx.firstPage]
    exact h.2.2 n hn
  | free i =>
    refine ⟨h.1.frame hs hp, hsx.kind.trans h.2.1, fun n hn => ?_⟩
    rw [hsx.pages] at hn
    rw [hl ⟨List.mem_cons_self, Or.inl rfl⟩ n hn, hsx.firstPage]
    exact h.2.2 n hn
  | unlock =>
    refine ⟨h.1.frame hs hp, hsx.kind.trans h.2.1, fun n hn => ?_⟩
    rw [hsx.pages] at hn
    rw [hl ⟨List.mem_cons_self, Or.inl rfl⟩ n hn]
    exact h.2.2 n hn
  | unlink =>
    refine ⟨h.1.frame hs hp, fun y hy => h.2.1 y (hc rfl y hy), hm rfl h.2.2.1, fun hk n hn => ?_⟩
    rw [hsx.pages] at hn
    rw [hsx.kind] at hk
    rw [hl ⟨List.mem_cons_self, Or.inr ⟨above, rfl⟩⟩ n hn]
    exact h.2.2.2 hk n hn
  | put =>
    have hpx := hp x List.mem_cons_self
    exact ⟨hpx.parent.trans h.1, hpx.unmapped.trans h.2.1, PathAbove.frame h.2.2
      (fun y hy => hs y (List.mem_cons_of_mem x hy)) fun y hy => hp y (List.mem_cons_of_mem x hy)⟩

/-- What a core relies on still holds after a step of another one. -/
theorem PcOk.frame (h : s.PcOk roots d q) (hs : ∀ y ∈ q.vmars, Same s s' y)
    (hp : ∀ y ∈ q.pinned, Stays s s' y)
    (hc : ∀ x, (q.made = some x ∨ Owns q x) → ∀ y, s'.parent y = some x → s.parent y = some x)
    (hh : ∀ y, 0 < s.handles d y → 0 < s'.handles d y)
    (hr : ∀ x, q.made = some x → s'.refCount x = s.refCount x)
    (hm : ∀ x above, q = .unmap .unlink x above → s.pageTableLock x = false →
      s'.pageTableLock x = false)
    (hl : ∀ x, Owns q x → ∀ n ∈ s.pages x, s'.leaf n = s.leaf n)
    (hf : ∀ f, s.holder f = .core d → s'.holder f = .core d) : s'.PcOk roots d q := by
  cases q with
  | findMutex x n | findUnlock x n =>
    exact Covers.frame h (hs x List.mem_cons_self) (hp x List.mem_cons_self)
  | populateLock x | populateMutex x | populateCheck x =>
    exact ⟨(hs x List.mem_cons_self).kind.trans h.1, hh x h.2⟩
  | populate w x n stop =>
    exact ⟨Covers.frame h.1 (hs x List.mem_cons_self) (hp x List.mem_cons_self),
      fun hw => hh x (h.2 hw)⟩
  | store w x n stop f =>
    obtain ⟨h1, h2, h3, h4, h5⟩ := h
    refine ⟨h1.frame (hs x List.mem_cons_self) (hp x List.mem_cons_self), fun hw => hh x (h2 hw), h3,
      ?_, hf f h5⟩
    rw [hl x ⟨List.mem_cons_self, Or.inl rfl⟩ n (h1.pages ⟨le_rfl, h3⟩), h4]
  | populateUnlock w x =>
    exact ⟨(hs x List.mem_cons_self).kind.trans h.1, fun hw => hh x (h.2 hw)⟩
  | mapLock p x n | mapPlace p x n =>
    obtain ⟨h1, h2, h3, h4⟩ := h
    refine ⟨h1.frame (hs x ?_) (hp x List.mem_cons_self) (hc x (Or.inl rfl)) (hr x rfl),
      h2.imp_right (hh p), (hs p List.mem_cons_self).kind.trans h3, h4⟩
    exact List.mem_cons_of_mem p List.mem_cons_self
  | mapFail x | mapFree x =>
    exact New.frame h (hs x List.mem_cons_self) (hp x List.mem_cons_self) (hc x (Or.inl rfl))
      (hr x rfl)
  | unmapLock x | unmapCheck x => exact hh x h
  | unmap phase x above =>
    have hown : phase = .unlink → Owns (.unmap phase x above) x := fun he =>
      ⟨List.mem_cons_self, Or.inr ⟨above, by rw [he]⟩⟩
    exact UnmapOk.frame h hs hp (fun he => hc x (Or.inr (hown he)))
      (fun he => hm x above (by rw [he])) (hl x)
  | findLock | find => exact h
  | idle | faultPut | unshare | treeUnlock => trivial

/-- The vmars are as they were. -/
structure SameVmars (s s' : VmarCores ι) : Prop where
  kind : s'.kind = s.kind
  firstPage : s'.firstPage = s.firstPage
  pageCount : s'.pageCount = s.pageCount
  parent : s'.parent = s.parent
  unmapped : s'.unmapped = s.unmapped

namespace SameVmars

theorem same (h : SameVmars s s') (x : ℕ) : Same s s' x :=
  ⟨by rw [h.kind], by rw [h.firstPage], by rw [h.pageCount]⟩

theorem stays (h : SameVmars s s') (x : ℕ) : Stays s s' x := ⟨by rw [h.parent], by rw [h.unmapped]⟩

theorem pages (h : SameVmars s s') (x : ℕ) : s'.pages x = s.pages x := (h.same x).pages

theorem covers (h : SameVmars s s') (hc : s.Covers x n stop) : s'.Covers x n stop :=
  hc.frame (h.same x) (h.stays x)

theorem path (h : SameVmars s s') (hp : s.Path x above) : s'.Path x above :=
  hp.frame (fun y _ => h.same y) fun y _ => h.stays y

end SameVmars

theorem PcOk.congr (h : s.PcOk roots d q) (hv : SameVmars s s') (hh : s'.handles d = s.handles d)
    (hr : ∀ x, q.made = some x → s'.refCount x = s.refCount x)
    (hm : ∀ x above, q = .unmap .unlink x above → s.pageTableLock x = false →
      s'.pageTableLock x = false)
    (hl : ∀ x, Owns q x → ∀ n ∈ s.pages x, s'.leaf n = s.leaf n)
    (hf : ∀ f, s.holder f = .core d → s'.holder f = .core d) : s'.PcOk roots d q :=
  h.frame (fun y _ => hv.same y) (fun y _ => hv.stays y) (fun _ _ _ hy => hv.parent ▸ hy)
    (fun _ hy => hh ▸ hy) hr hm hl hf

/-- A core has moved, and that is all. -/
theorem PcOk.setPc [DecidableEq ι] {q' : VmarPc} (h : s.PcOk roots d q) :
    (s.setPc c q').PcOk roots d q :=
  h.congr ⟨rfl, rfl, rfl, rfl, rfl⟩ rfl (fun _ _ => rfl) (fun _ _ _ hl => hl) (fun _ _ _ _ => rfl) fun _ hf => hf

end VmarCores

end Tomato
