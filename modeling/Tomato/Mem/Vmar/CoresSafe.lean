import Tomato.Mem.Vmar.CoresRun

/-!
# What the locks of the vmars are for

In every run of the cores: no page of a mapping is populated once `virt_free` has started on it,
each frame is freed once for each time it was put into an entry, the assertions hold, and nobody
looks at a vmar that was freed.
-/

namespace Tomato

open Forest Tally Transition

namespace VmarPc

/-- The core is between the start of `virt_free` and the end of `vmar_unmap_internal`. -/
def Unmaps (x : ℕ) : VmarPc → Prop
  | .unmap (.invalidate _) y _ | .unmap (.free _) y _ | .unmap .unlock y _ | .unmap .unlink y _ =>
      y = x
  | _ => False

variable {q q' : VmarPc} {x y : ℕ}

theorem Frees.unmaps (h : q.Frees x) : q.Unmaps x ∧ q.mutex = some x := by
  cases q with
  | unmap phase z above =>
    cases phase with
    | invalidate i | free i =>
      obtain rfl : z = x := h
      exact ⟨rfl, rfl⟩
    | _ => exact h.elim
  | _ => exact h.elim

theorem Unmaps.not_locking (h : q.Unmaps x) : q.beforeShared = none ∧ q.afterShared = none ∧
    q.beforeExclusive = none ∧ q.afterExclusive = none ∧ q.beforeMutex = none := by
  cases q with
  | unmap phase z above =>
    cases phase with
    | invalidate i | free i | unlock | unlink => exact ⟨rfl, rfl, rfl, rfl, rfl⟩
    | _ => exact h.elim
  | _ => exact h.elim

theorem Unmaps.afterMutex (h : q.Unmaps x) (hq : q.afterMutex = some (y, q')) : q'.Unmaps x := by
  cases q with
  | unmap phase z above =>
    cases phase with
    | unlock =>
      obtain ⟨-, rfl⟩ := Prod.mk.inj (Option.some.inj hq)
      exact h
    | _ => simp [VmarPc.afterMutex] at hq
  | _ => exact h.elim

end VmarPc

namespace VmarCores

variable {ι : Type*} {roots : Finset ℕ} {s s' t u : VmarCores ι} {c d e : ι}
  {q : VmarPc} {x y n m p f first : ℕ} {above : List ℕ} {kind : VmarKind}

/-- A mapping with the page is linked. -/
def Links (s s' : VmarCores ι) (n : ℕ) : Prop :=
  ∃ x, s.parent x = none ∧ s'.Covers x n (n + 1)

/-- The core `c` unmaps the mapping with the page, or there is none. -/
def Dying (s : VmarCores ι) (c : ι) (x n : ℕ) : Prop :=
  ((s.pc c).Unmaps x ∧ s.Covers x n (n + 1)) ∨ ∀ y, ¬ s.Covers y n (n + 1)

theorem Initial.inv [Fintype ι] (h : Initial roots s) : s.Inv roots := by
  have hlinked : ∀ x, s.Linked x → ∃ p, s.parent x = some p := fun x hx =>
    Option.ne_none_iff_exists'.mp hx
  have hrank : Ranked s.parent fun x => if x ∈ roots then 1 else 0 := by
    intro x p hp
    have hx : x ∉ roots := fun hr => by simp [(h.root x hr).2.1] at hp
    simp [hx, (h.linked x p hp).1]
  have hpc : ∀ {g : VmarPc → ℕ}, g .idle = 0 → tally g s.pc = 0 := fun hg =>
    tally_eq_zero fun c => by rw [h.idle c, hg]
  refine ⟨⟨?_, ?_, ?_, fun x => ?_⟩, ⟨fun x => ?_, fun x => ?_, fun c x hx => ?_,
    fun x hx hr hn => ?_⟩, ⟨⟨_, hrank⟩, ⟨h.inside, fun x y p n hx hy hnx hny => ?_⟩,
    fun x p hp => ?_, fun x hx => ?_, fun x hx => ?_, fun r hr => ?_, h.apart, fun x p hp _ => ?_⟩,
    fun c => ?_, ⟨fun n hn => ?_, fun n hn => ?_⟩, ⟨fun n f => ?_, fun f c hc => ?_, fun f => ?_⟩⟩
  · rw [h.readers, hpc rfl]
  · rw [h.writer, hpc rfl, Bool.toNat_false]
  · exact fun _ => h.readers
  · rw [h.mutex x, hpc (if_neg (by simp [VmarPc.mutex])), Bool.toNat_false]
  · have hh : tally (fun h : ℕ → ℕ => h x) s.handles = 0 := tally_eq_zero fun c => h.handles c x
    rw [hh, hpc (by simp [VmarPc.refs, VmarPc.ref, VmarPc.made])]
    by_cases hx : x ∈ s.live
    · rw [h.refCount x hx, treeRefs, if_pos ((h.live x).mp hx)]
    · rw [h.gone x hx, treeRefs, if_neg fun hc => hx ((h.live x).mpr hc)]
  · by_cases hx : x ∈ s.live
    · simp [hx, h.refCount x hx]
    · simp [hx, h.gone x hx]
  · simp [h.handles c x] at hx
  · rcases (h.live x).mp hx with hx | hx
    · exact absurd hx hr
    · exact absurd hn hx
  · by_contra hne
    exact Set.disjoint_left.mp (h.siblings x y p hx hy hne) hnx hny
  · exact ⟨(h.root p (h.linked x p hp).1).1, Or.inl (h.linked x p hp).1⟩
  · obtain ⟨p, hp⟩ := hlinked x hx
    exact ⟨fun hr => by simp [(h.root x hr).2.1] at hp, (h.linked x p hp).2.2⟩
  · obtain ⟨p, hp⟩ := hlinked x hx
    exact ⟨p, (h.linked x p hp).1, .head hp (.refl p)⟩
  · exact ⟨(h.root r hr).1, (h.root r hr).2.2⟩
  · exact (h.linked x p hp).1
  · rw [h.idle c]
    trivial
  · exact absurd (h.leaf n) hn
  · simp [h.leaf n, LeafEntry.Stale] at hn
  · rcases h.holder f with hf | hf <;> simp [h.leaf n, hf, LeafEntry.frame]
  · rcases h.holder f with hf | hf <;> simp [hf] at hc
  · rcases h.holder f with hf | hf <;> simp [hf, h.frames f, FrameHolder.entries]

theorem owns_of_unmaps (h : q.Unmaps x) : Owns q x := by
  cases q with
  | unmap phase y above =>
    cases phase with
    | invalidate i | free i | unlock =>
      obtain rfl : y = x := h
      exact ⟨List.mem_cons_self, Or.inl rfl⟩
    | unlink =>
      obtain rfl : y = x := h
      exact ⟨List.mem_cons_self, Or.inr ⟨above, rfl⟩⟩
    | _ => exact h.elim
  | _ => exact h.elim

variable [Fintype ι] [DecidableEq ι]

theorem inv_of_reachable (h : Reachable (Initial roots) (Step roots) s) : s.Inv roots :=
  h.invariant (fun _ h0 => h0.inv) fun _ _ hi hs => hi.step hs

/-- A step of the cores that links no mapping with the page. -/
def StepWithout (roots : Finset ℕ) (n : ℕ) (s s' : VmarCores ι) : Prop :=
  Step roots s s' ∧ ¬ Links s s' n

namespace Inv

/-- A mapping with the page was there before, or it was linked. -/
theorem covers_of_step (h : s.Inv roots) (hs : Step roots s s') (hc : s'.Covers x n (n + 1)) :
    s.Covers x n (n + 1) ∨ Links s s' n := by
  have hback : SameVmars s' s → s.Covers x n (n + 1) := fun hv => hv.covers hc
  cases hs with
  | @place d p y first m hp =>
    by_cases hxy : x = y
    · exact Or.inr ⟨x, hxy ▸ ((h.pc_ok hp).1.unlinked), hc⟩
    · refine Or.inl (hc.frame ⟨rfl, ?_, ?_⟩ ⟨?_, rfl⟩) <;> simp [hxy]
  | @unlink d y above hp =>
    have hxy : x ≠ y := by
      rintro rfl
      exact hc.linked (by simp)
    refine Or.inl (hc.frame ⟨rfl, rfl, rfl⟩ ⟨?_, ?_⟩) <;> simp [hxy]
  | @alloc d p y m kind hp _ _ _ _ hy =>
    have hxy : x ≠ y := by
      rintro rfl
      exact hy (h.live_of_tree (Or.inr hc.linked))
    refine Or.inl (hc.frame ⟨?_, rfl, rfl⟩ ⟨rfl, ?_⟩) <;> simp [hxy]
  | _ => exact Or.inl (hback ⟨rfl, rfl, rfl, rfl, rfl⟩)

omit [Fintype ι] in
/-- A core that unmaps a vmar goes on with it until it is out of the tree. -/
theorem unmaps_step (hs : Step roots s s') (hc : (s.pc c).Unmaps x) :
    (s'.pc c).Unmaps x ∨ s'.parent x = none := by
  -- the step of another core
  have hother : ∀ {d : ι} {q : VmarPc}, (d = c → q.Unmaps x) →
      (Function.update s.pc d q c).Unmaps x := by
    intro d q hd
    by_cases hdc : d = c
    · subst hdc
      rw [Function.update_self]
      exact hd rfl
    · rwa [Function.update_of_ne (Ne.symm hdc)]
  have hself : ∀ {d : ι}, d = c → (s.pc d).Unmaps x := fun hd => hd ▸ hc
  cases hs with
  | @goto d q hg =>
    refine Or.inl (hother fun hd => ?_)
    have hd' := hself hd
    generalize s.pc d = q₀ at hg hd'
    cases hg with
    | untouched | invalidated | nothing | freed => exact hd'
    | _ => exact hd'.elim
  | lockShared hq =>
    exact Or.inl (hother fun hd => by simp [(hself hd).not_locking.1] at hq)
  | unlockShared hq =>
    exact Or.inl (hother fun hd => by simp [(hself hd).not_locking.2.1] at hq)
  | lockExclusive hq =>
    exact Or.inl (hother fun hd => by simp [(hself hd).not_locking.2.2.1] at hq)
  | unlockExclusive hq =>
    exact Or.inl (hother fun hd => by simp [(hself hd).not_locking.2.2.2.1] at hq)
  | lockMutex hq =>
    exact Or.inl (hother fun hd => by simp [(hself hd).not_locking.2.2.2.2] at hq)
  | unlockMutex hq => exact Or.inl (hother fun hd => (hself hd).afterMutex hq)
  | found hp | take hp | store hp | putUnmapped hp | putFault hp | alloc hp | place hp | noPlace hp
  | freeNew hp =>
    refine Or.inl (hother fun hd => ?_)
    have hd' := hself hd
    rw [hp] at hd'
    exact hd'.elim
  | invalidate hp | free hp =>
    refine Or.inl (hother fun hd => ?_)
    have hd' := hself hd
    rw [hp] at hd'
    exact hd'
  | @unlink d y above hp =>
    by_cases hd : d = c
    · have hd' := hself hd
      rw [hp] at hd'
      obtain rfl : y = x := hd'
      exact Or.inr (by simp)
    · exact Or.inl (hother fun hc => absurd hc hd)
  | get | put | pass | otherTake | otherFree => exact Or.inl hc

omit [DecidableEq ι] in
theorem covers_unique (h : s.Inv roots) (hx : s.Covers x n (n + 1)) (hy : s.Covers y n (n + 1)) :
    x = y := by
  have hleaf : ∀ {z}, s.Covers z n (n + 1) → ∀ w, s.parent w ≠ some z := fun hz =>
    h.tree.childless (by simp [hz.kind])
  exact h.tree.eq_of_page hx.linked hy.linked (hleaf hx) (hleaf hy)
    (hx.pages ⟨le_rfl, Nat.lt_succ_self n⟩) (hy.pages ⟨le_rfl, Nat.lt_succ_self n⟩)

/-- The mapping stays what it is until it is out of the tree. -/
theorem covers_step (h : s.Inv roots) (hs : Step roots s s') (hc : s.Covers x n (n + 1))
    (hl : s'.Linked x) : s'.Covers x n (n + 1) := by
  cases hs with
  | @place d p y first m hp =>
    have hxy : x ≠ y := by
      rintro rfl
      exact hc.linked (h.pc_ok hp).1.unlinked
    refine hc.frame ⟨rfl, ?_, ?_⟩ ⟨?_, rfl⟩ <;> simp [hxy]
  | @unlink d y above hp =>
    have hxy : x ≠ y := by
      rintro rfl
      exact hl (by simp)
    refine hc.frame ⟨rfl, rfl, rfl⟩ ⟨?_, ?_⟩ <;> simp [hxy]
  | @alloc d p y m kind hp _ _ _ _ hy =>
    have hxy : x ≠ y := by
      rintro rfl
      exact hy (h.live_of_tree (Or.inr hc.linked))
    refine hc.frame ⟨?_, rfl, rfl⟩ ⟨rfl, ?_⟩ <;> simp [hxy]
  | _ => exact hc.frame ⟨rfl, rfl, rfl⟩ ⟨rfl, rfl⟩

theorem dying_step (h : s.Inv roots) (hs : StepWithout roots n s s') (hd : Dying s c x n) :
    Dying s' c x n := by
  obtain ⟨hs, hn⟩ := hs
  have hback : ∀ y, s'.Covers y n (n + 1) → s.Covers y n (n + 1) := fun y hy =>
    (h.covers_of_step hs hy).resolve_right hn
  rcases hd with ⟨hc, hx⟩ | hnone
  · by_cases hl : s'.Linked x
    · exact Or.inl ⟨(unmaps_step hs hc).resolve_right hl, h.covers_step hs hx hl⟩
    · refine Or.inr fun y hy => hl ?_
      obtain rfl := h.covers_unique hx (hback y hy)
      exact hy.linked
  · exact Or.inr fun y hy => hnone y (hback y hy)

/-- A page is populated for a mapping that nobody unmaps. -/
theorem present_step (h : s.Inv roots) (hs : Step roots s s') (hd : Dying s c x n)
    (hp : (s'.leaf n).Present) : (s.leaf n).Present := by
  have hsame : ∀ {m : ℕ} {v : LeafEntry}, ¬ v.Present → (Function.update s.leaf m v n).Present →
      (s.leaf n).Present := by
    intro m v hv hm
    by_cases hnm : n = m
    · subst hnm
      rw [Function.update_self] at hm
      exact absurd hm hv
    · rwa [Function.update_of_ne hnm] at hm
  cases hs with
  | @store e w y m stop f hc =>
    by_cases hnm : n = m
    · subst hnm
      -- the core has the mapping locked, and so has the one that unmaps it
      exfalso
      obtain ⟨hcov, -, hlt, -⟩ := h.pc_ok hc
      have hy : s.Covers y n (n + 1) :=
        ⟨hcov.linked, hcov.kind, (Set.Ico_subset_Ico_right hlt).trans hcov.pages⟩
      rcases hd with ⟨hu, hx⟩ | hnone
      · obtain rfl := h.covers_unique hx hy
        have ho : Owns (s.pc e) x := by
          rw [hc]
          exact ⟨List.mem_cons_self, Or.inl rfl⟩
        obtain rfl := h.eq_of_owns_same (owns_of_unmaps hu) ho
        rw [hc] at hu
        exact hu.elim
      · exact hnone y hy
    · simpa [hnm] using hp
  | invalidate => exact hsame (by simp [LeafEntry.Present]) hp
  | free => exact hsame (by simp [LeafEntry.Present]) hp
  | _ => exact hp

omit [DecidableEq ι] in
/-- A page of a mapping that is unmapped is present only until the first loop comes to it. -/
theorem present_of_dying (h : s.Inv roots) (hd : Dying s c x n) (hp : (s.leaf n).Present) :
    ∃ above i, s.pc c = .unmap (.invalidate i) x above ∧ s.firstPage x + i ≤ n := by
  obtain ⟨f, hf⟩ := hp
  rcases hd with ⟨hu, hx⟩ | hnone
  · have hn := hx.pages ⟨le_rfl, Nat.lt_succ_self n⟩
    generalize hq : s.pc c = q at hu
    have hok := h.pc_ok hq
    cases q with
    | unmap phase y above =>
      cases phase with
      | invalidate i =>
        obtain rfl : y = x := hu
        refine ⟨above, i, rfl, ?_⟩
        by_contra hlt
        exact (hok.2.2 n hn).1 (by omega) ⟨f, hf⟩
      | free i =>
        obtain rfl : y = x := hu
        exact absurd ⟨f, hf⟩ (hok.2.2 n hn).2
      | unlock =>
        obtain rfl : y = x := hu
        simp [hok.2.2 n hn] at hf
      | unlink =>
        obtain rfl : y = x := hu
        simp [hok.2.2.2 hx.kind n hn] at hf
      | _ => exact hu.elim
    | _ => exact hu.elim
  · obtain ⟨y, hy⟩ := h.leaves.covered n (by simp [hf])
    exact absurd hy (hnone y)

end Inv

/-- Two cores, and one region of a hundred pages. -/
def smallCores : VmarCores (Fin 2) where
  parent := fun _ => none
  kind := fun _ => .region
  firstPage := fun _ => 0
  pageCount := fun _ => 100
  unmapped := fun _ => false
  refCount := fun x => if x = 1 then 1 else 0
  live := {1}
  readers := 0
  writer := false
  pageTableLock := fun _ => false
  leaf := fun _ => .empty
  holder := fun _ => .allocator
  installed := fun _ => 0
  freed := fun _ => 0
  handles := fun _ _ => 0
  pc := fun _ => .idle

theorem smallCores_initial : Initial {1} smallCores := by
  refine ⟨fun _ => rfl, fun _ _ => rfl, rfl, rfl, fun _ => rfl, fun x hx => ?_, fun x hx => ?_,
    fun x => ?_, fun x _ => ⟨rfl, rfl, rfl⟩, fun x p hp => ?_, fun x p hp => ?_, fun x y p hp => ?_,
    fun x hx y hy hne => ?_, fun _ => rfl, fun _ => Or.inl rfl, fun _ => ⟨rfl, rfl⟩⟩
  · exact if_pos hx
  · exact if_neg hx
  · simp [smallCores, Linked]
  · simp [smallCores] at hp
  · simp [smallCores] at hp
  · simp [smallCores] at hp
  · exact absurd ((Finset.mem_singleton.mp hx).trans (Finset.mem_singleton.mp hy).symm) hne

theorem fits_region {s : VmarCores (Fin 2)} (hp : s.parent = fun _ => none)
    (hf : s.firstPage = fun _ => 0) (hc : s.pageCount = fun _ => 100) : s.Fits 1 5 1 := by
  refine ⟨fun n hn => ?_, fun y hy => ?_⟩
  · obtain ⟨h1, h2⟩ := hn
    simp only [VmarCores.pages, hf, hc, Set.mem_Ico]
    omega
  · simp [hp] at hy

/-- The first core maps a page, the second one faults on it, and the first one unmaps it. -/
theorem exists_frees : ∃ s : VmarCores (Fin 2), Reachable (Initial {1}) (Step {1}) s ∧
    (s.pc 0).Frees 2 ∧ 5 ∈ s.pages 2 ∧ (s.leaf 5).Present := by
  have h : Reachable (Initial {1}) (Step {1}) smallCores := .start smallCores_initial
  -- `vmar_map`
  have h := h.next (.alloc (c := 0) (p := 1) (x := 2) (n := 1) rfl (Or.inl (by decide)) rfl
    (by decide) (show VmarKind.mapping ≠ .special by decide) (by simp [smallCores]))
  have h := h.next (.lockExclusive (c := 0) rfl rfl rfl)
  have h := h.next (.place (c := 0) rfl rfl (fits_region rfl rfl rfl))
  have h := h.next (.unlockExclusive (c := 0) rfl)
  -- `virt_page_fault_handler`
  have h := h.next (.goto (c := 1)
    (show Goto {1} _ 1 .idle (.findLock 1 5) from .fault (by decide)))
  have h := h.next (.lockShared (c := 1) rfl rfl)
  have h := h.next (.found (c := 1) (x := 2) rfl (.head rfl (.refl 1)) rfl
    ⟨le_rfl, Nat.lt_succ_self 5⟩)
  have h := h.next (.lockMutex (c := 1) rfl rfl)
  have h := h.next (.unlockShared (c := 1) rfl)
  have h := h.next (.take (c := 1) (f := 7) rfl (Nat.lt_succ_self 5)
    (fun hp => hp.elim fun _ he => LeafEntry.noConfusion he) rfl)
  have h := h.next (.store (c := 1) rfl)
  have h := h.next (.goto (c := 1) (.populated (le_refl 6)))
  have h := h.next (.unlockMutex (c := 1) rfl)
  have h := h.next (.putFault (c := 1) rfl)
  -- `vmar_unmap`
  have h := h.next (.goto (c := 0) (.unmap (x := 2) Nat.one_pos))
  have h := h.next (.lockExclusive (c := 0) rfl rfl rfl)
  have h := h.next (.goto (c := 0) (.enter rfl))
  have h := h.next (.goto (c := 0) (.mapping rfl))
  have h := h.next (.lockMutex (c := 0) rfl rfl)
  exact ⟨_, h, rfl, ⟨le_rfl, Nat.lt_succ_self 5⟩, 7, rfl⟩

/-- Once `virt_free` has started on a mapping, and until another mapping with the page is linked,
no step populates the page, and it is present only as long as the first loop of `virt_free` has not
come to it. -/
theorem absent_of_frees (h : Reachable (Initial roots) (Step roots) s) (hc : (s.pc c).Frees x)
    (hn : n ∈ s.pages x) (hr : Relation.ReflTransGen (StepWithout roots n) s t) :
    ((t.leaf n).Present → ∃ above i, t.pc c = .unmap (.invalidate i) x above ∧
      t.firstPage x + i ≤ n) ∧
    ∀ u, Step roots t u → (u.leaf n).Present → (t.leaf n).Present := by
  have hs := inv_of_reachable h
  have hdying : Dying s c x n := by
    obtain ⟨hu, hm⟩ := hc.unmaps
    refine Or.inl ⟨hu, ((hs.pcs c).owned hs.tree (owns_of_frees hc)).1,
      (hs.pcs c).kind_of_mutex hm, fun m hmem => ?_⟩
    obtain rfl : m = n := Nat.le_antisymm (Nat.lt_succ_iff.mp hmem.2) hmem.1
    exact hn
  obtain ⟨ht, hd⟩ : t.Inv roots ∧ Dying t c x n := by
    induction hr with
    | refl => exact ⟨hs, hdying⟩
    | tail _ hst ih => exact ⟨ih.1.step hst.1, ih.1.dying_step hst ih.2⟩
  exact ⟨ht.present_of_dying hd, fun u hu => ht.present_step hu hd⟩

/-- The page of the fault is present until the first core comes to it. -/
theorem absent_smallCores : ∃ s : VmarCores (Fin 2), (s.leaf 5).Present ∧
    (∃ above i, s.pc 0 = .unmap (.invalidate i) 2 above ∧ s.firstPage 2 + i ≤ 5) ∧
    ∀ u, Step {1} s u → (u.leaf 5).Present → (s.leaf 5).Present := by
  obtain ⟨s, h, hc, hn, hp⟩ := exists_frees
  have hs := absent_of_frees h hc hn .refl
  exact ⟨s, hp, hs.1 hp, hs.2⟩

namespace Inv

end Inv

end VmarCores

end Tomato
