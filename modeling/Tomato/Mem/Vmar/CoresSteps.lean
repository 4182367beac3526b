import Tomato.Mem.Vmar.CoresFrame

/-!
# The steps of the cores

Every step keeps what the core that takes it and all the others rely on. Two cores are never in
the same mapping, since one that unmaps it waits for the lock of the mapping, and everybody else
has found it in the tree.
-/

namespace Tomato

open Forest Tally

namespace VmarCores

variable {ι : Type*} {roots : Finset ℕ} {s s' : VmarCores ι} {c d : ι}
  {q : VmarPc} {x y n m p f first stop : ℕ} {above : List ℕ} {phase : UnmapPhase}

namespace TreeOk

/-- Regions have children, and nothing else. -/
theorem childless (h : s.TreeOk roots) (hk : s.kind x ≠ .region) : ∀ y, s.parent y ≠ some x :=
  fun y hy => hk (h.parent y x hy).1

/-- Two vmars without children and with a common page are the same. -/
theorem eq_of_page (h : s.TreeOk roots) (hx : s.Linked x) (hy : s.Linked y)
    (hcx : ∀ z, s.parent z ≠ some x) (hcy : ∀ z, s.parent z ≠ some y) (hnx : n ∈ s.pages x)
    (hny : n ∈ s.pages y) : x = y := by
  obtain ⟨r, hr, hbx⟩ := h.rooted x hx
  obtain ⟨t, ht, hby⟩ := h.rooted y hy
  obtain rfl : r = t := by
    by_contra hne
    exact Set.disjoint_left.mp (h.apart r hr t ht hne) (h.nested.subset hbx hnx)
      (h.nested.subset hby hny)
  exact h.nested.eq_of_leaves hbx hby hcx hcy hnx hny

end TreeOk

/-- A vmar that is pinned is in the tree and locked in some way, or it is new. -/
theorem pinned_cases (h : x ∈ q.pinned) :
    q.mutex = some x ∨ 0 < q.shared ∨ 0 < q.exclusive ∨ q.made = some x := by
  cases q with
  | findMutex y n | findUnlock y n => exact Or.inr (Or.inl Nat.one_pos)
  | populate w y n stop | store w y n stop f =>
    exact Or.inl (congrArg some (List.mem_singleton.mp h).symm)
  | mapLock p y n | mapPlace p y n | mapFail y | mapFree y =>
    exact Or.inr (Or.inr (Or.inr (congrArg some (List.mem_singleton.mp h).symm)))
  | unmap phase y above => exact Or.inr (Or.inr (Or.inl Nat.one_pos))
  | _ => simp [VmarPc.pinned] at h

theorem owns_of_frees (h : q.Frees x) : Owns q x := by
  cases q with
  | unmap phase y above =>
    cases phase with
    | invalidate i | free i =>
      obtain rfl : y = x := h
      exact ⟨List.mem_cons_self, Or.inl rfl⟩
    | _ => exact h.elim
  | _ => exact h.elim

theorem exclusive_of_frees (h : q.Frees x) : 0 < q.exclusive := by
  cases q with
  | unmap phase y above => exact Nat.one_pos
  | _ => exact h.elim

namespace PcOk

theorem kind_of_mutex (h : s.PcOk roots c q) (hm : q.mutex = some x) : s.kind x = .mapping := by
  cases q with
  | findUnlock y n =>
    obtain rfl := Option.some.inj hm
    exact h.kind
  | populateCheck y | populateUnlock w y =>
    obtain rfl := Option.some.inj hm
    exact h.1
  | populate w y n stop | store w y n stop f =>
    obtain rfl := Option.some.inj hm
    exact h.1.kind
  | unmap phase y above =>
    cases phase with
    | invalidate i | free i | unlock =>
      obtain rfl := Option.some.inj hm
      exact h.2.1
    | _ => simp [VmarPc.mutex] at hm
  | _ => simp [VmarPc.mutex] at hm

/-- The core or the tree has a reference to each vmar that the core goes on with. -/
theorem holds (h : s.PcOk roots c q) (hy : y ∈ q.vmars) :
    y ∈ roots ∨ s.Linked y ∨ 0 < s.handles c y ∨ 0 < q.refs y := by
  cases q with
  | findMutex x n | findUnlock x n =>
    obtain rfl := List.mem_singleton.mp hy
    exact Or.inr (Or.inl h.linked)
  | populateLock x | populateMutex x | populateCheck x =>
    obtain rfl := List.mem_singleton.mp hy
    exact Or.inr (Or.inr (Or.inl h.2))
  | populate w x n stop | store w x n stop f =>
    obtain rfl := List.mem_singleton.mp hy
    exact Or.inr (Or.inl h.1.linked)
  | populateUnlock w x =>
    obtain rfl := List.mem_singleton.mp hy
    cases w with
    | fault => exact Or.inr (Or.inr (Or.inr (VmarPc.refs_pos_of_ref rfl)))
    | populate => exact Or.inr (Or.inr (Or.inl (h.2 rfl)))
  | faultPut x =>
    obtain rfl := List.mem_singleton.mp hy
    exact Or.inr (Or.inr (Or.inr (VmarPc.refs_pos_of_ref rfl)))
  | mapLock p x n | mapPlace p x n =>
    rcases List.mem_cons.mp hy with rfl | hy
    · exact h.2.1.imp_right fun hh => Or.inr (Or.inl hh)
    · obtain rfl := List.mem_singleton.mp hy
      exact Or.inr (Or.inr (Or.inr (lt_of_lt_of_le Nat.two_pos (VmarPc.two_le_refs rfl))))
  | mapFail x | mapFree x =>
    obtain rfl := List.mem_singleton.mp hy
    exact Or.inr (Or.inr (Or.inr (lt_of_lt_of_le Nat.two_pos (VmarPc.two_le_refs rfl))))
  | unmapLock x | unmapCheck x =>
    obtain rfl := List.mem_singleton.mp hy
    exact Or.inr (Or.inr (Or.inl h))
  | unmap phase x above =>
    cases phase with
    | enter => exact Or.inr (Or.inl (Path.linked h y hy))
    | lock | invalidate i | free i | unlock | unlink => exact Or.inr (Or.inl (Path.linked h.1 y hy))
    | put =>
      rcases List.mem_cons.mp hy with rfl | hy
      · exact Or.inr (Or.inr (Or.inr (VmarPc.refs_pos_of_ref rfl)))
      · exact Or.inr (Or.inl (PathAbove.linked h.2.2 y hy))
  | idle | findLock | find | unshare | treeUnlock => simp [VmarPc.vmars] at hy

theorem new_of_made (h : s.PcOk roots c q) (hm : q.made = some x) : s.New roots x := by
  cases q with
  | mapLock p y n | mapPlace p y n =>
    obtain rfl := Option.some.inj hm
    exact h.1
  | mapFail y | mapFree y =>
    obtain rfl := Option.some.inj hm
    exact h
  | _ => simp [VmarPc.made] at hm

/-- A vmar that a core owns is in the tree, and has no children. -/
theorem owned (h : s.PcOk roots c q) (ht : s.TreeOk roots) (ho : Owns q x) :
    s.Linked x ∧ ∀ z, s.parent z ≠ some x := by
  obtain ⟨hp, ho⟩ := ho
  rcases ho with hm | ⟨above, rfl⟩
  · refine ⟨?_, ht.childless (by simp [h.kind_of_mutex hm])⟩
    cases q with
    | findUnlock y n =>
      obtain rfl := Option.some.inj hm
      exact h.linked
    | populate w y n stop | store w y n stop f =>
      obtain rfl := Option.some.inj hm
      exact h.1.linked
    | unmap phase y above =>
      cases phase with
      | invalidate i | free i | unlock => exact Path.linked h.1 x hp
      | _ => simp [VmarPc.mutex] at hm
    | populateCheck y | populateUnlock w y => simp [VmarPc.pinned] at hp
    | _ => simp [VmarPc.mutex] at hm
  · exact ⟨Path.linked h.1 x List.mem_cons_self, h.2.1⟩

end PcOk

variable [Fintype ι]

namespace Inv

theorem pc_ok (h : s.Inv roots) (hq : s.pc c = q) : s.PcOk roots c q := hq ▸ h.pcs c

theorem refs_ne_zero (h : s.Inv roots) (hy : y ∈ (s.pc c).vmars) : s.refCount y ≠ 0 :=
  h.refs.refs_pos ((h.pcs c).holds hy)

theorem live_of_mem (h : s.Inv roots) (hy : y ∈ (s.pc c).vmars) : y ∈ s.live :=
  (h.refs.live y).mpr (h.refs_ne_zero hy)

theorem live_of_tree (h : s.Inv roots) (hx : x ∈ roots ∨ s.Linked x) : x ∈ s.live :=
  (h.refs.live x).mpr (h.refs.refs_of_tree hx)

theorem not_shared (h : s.Inv roots) (hc : 0 < (s.pc c).exclusive) (d : ι) :
    ¬ 0 < (s.pc d).shared := by
  rw [h.locks.shared_eq_zero hc d]
  exact lt_irrefl 0

variable [DecidableEq ι]

theorem alone (h : s.Inv roots) (hc : (s.pc c).made = some x) (d : ι) :
    s.handles d x = 0 ∧ (s.pc d).ref ≠ some x ∧ (d ≠ c → (s.pc d).made ≠ some x) :=
  h.refs.alone ((h.pcs c).new_of_made hc) hc d

/-- Nobody else has anything to do with a vmar that is not in the tree yet. -/
theorem ne_of_made (h : s.Inv roots) (hc : (s.pc c).made = some x) (hd : d ≠ c)
    (hy : y ∈ (s.pc d).vmars) : y ≠ x := by
  rintro rfl
  have hn := (h.pcs c).new_of_made hc
  obtain ⟨h1, h2, h3⟩ := h.alone hc d
  rcases (h.pcs d).holds hy with hr | hl | hh | hr
  · exact hn.root hr
  · exact hl hn.unlinked
  · omega
  · rw [VmarPc.refs, if_neg h2, if_neg (h3 hd)] at hr
    exact lt_irrefl 0 hr

/-- The lock of a vmar that a core owns is held by nobody else. -/
theorem eq_of_owns_same (h : s.Inv roots) (hc : Owns (s.pc c) x) (hd : Owns (s.pc d) x) : c = d := by
  have hfree : ∀ {e : ι} {above : List ℕ}, s.pc e = .unmap .unlink x above →
      s.pageTableLock x = false := fun he => (h.pc_ok he).2.2.1
  rcases hc.2 with hmc | ⟨a, ha⟩ <;> rcases hd.2 with hmd | ⟨b, hb⟩
  · exact h.locks.eq_of_mutex hmc hmd
  · have := h.locks.lock_of_mutex hmc
    simp [hfree hb] at this
  · have := h.locks.lock_of_mutex hmd
    simp [hfree ha] at this
  · exact h.locks.eq_of_exclusive (by rw [ha]; exact Nat.one_pos) (by rw [hb]; exact Nat.one_pos)

/-- Only one core owns a mapping with the page. -/
theorem eq_of_owns (h : s.Inv roots) (hc : Owns (s.pc c) x) (hd : Owns (s.pc d) y)
    (hnx : n ∈ s.pages x) (hny : n ∈ s.pages y) : c = d ∧ x = y := by
  obtain ⟨hlx, hcx⟩ := (h.pcs c).owned h.tree hc
  obtain ⟨hly, hcy⟩ := (h.pcs d).owned h.tree hd
  obtain rfl := h.tree.eq_of_page hlx hly hcx hcy hnx hny
  exact ⟨h.eq_of_owns_same hc hd, rfl⟩

/-- The vmar that is unlinked is pinned by nobody else. -/
theorem not_pinned (h : s.Inv roots) (hc : s.pc c = .unmap .unlink x above) (hd : d ≠ c) :
    x ∉ (s.pc d).pinned := by
  intro hp
  have hok := h.pc_ok hc
  have hex : 0 < (s.pc c).exclusive := by
    rw [hc]
    exact Nat.one_pos
  rcases pinned_cases hp with hm | hs | he | hm
  · have := h.locks.lock_of_mutex hm
    simp [hok.2.2.1] at this
  · exact h.not_shared hex d hs
  · exact hd (h.locks.eq_of_exclusive he hex)
  · exact Path.linked hok.1 x List.mem_cons_self ((h.pcs d).new_of_made hm).unlinked

omit [Fintype ι] in
theorem pcs_moved (hpc : s'.pc = Function.update s.pc c q) (hq : s'.PcOk roots c q)
    (hd : ∀ d ≠ c, s'.PcOk roots d (s.pc d)) (d : ι) : s'.PcOk roots d (s'.pc d) := by
  rw [hpc]
  by_cases hdc : d = c
  · subst hdc
    rwa [Function.update_self]
  · rw [Function.update_of_ne hdc]
    exact hd d hdc

/-- A step that leaves the vmars alone, and all the leaf entries but those of one core. -/
theorem others (h : s.Inv roots) (hd : d ≠ c) (hv : SameVmars s s')
    (hh : s'.handles d = s.handles d)
    (hr : ∀ x, (s.pc d).made = some x → s'.refCount x = s.refCount x)
    (hm : ∀ x above, s.pc d = .unmap .unlink x above → s.pageTableLock x = false →
      s'.pageTableLock x = false)
    (hl : ∀ n, s'.leaf n = s.leaf n ∨ ∃ x, Owns (s.pc c) x ∧ n ∈ s.pages x)
    (hf : ∀ f, s.holder f = .core d → s'.holder f = .core d) : s'.PcOk roots d (s.pc d) := by
  refine (h.pcs d).congr hv hh hr hm (fun x hx n hn => ?_) hf
  rcases hl n with he | ⟨y, hy, hny⟩
  · exact he
  · exact absurd (h.eq_of_owns hx hy hn hny).1 hd

/-- The leaf entries that are stale are those of the core that frees them. -/
theorem not_stale (h : s.Inv roots) (hc : Owns (s.pc c) x) (hn : n ∈ s.pages x)
    (hq : ¬ (s.pc c).Frees x) : ¬ (s.leaf n).Stale := by
  intro hst
  obtain ⟨d, y, hd, hny⟩ := h.leaves.stale n hst
  obtain ⟨rfl, rfl⟩ := h.eq_of_owns hc (owns_of_frees hd) hn hny
  exact hq hd

theorem pcs_goto (h : s.Inv roots) (hg : s.Goto roots c (s.pc c) q) :
    s.PcOk roots c q := by
  generalize hq : s.pc c = q₀ at hg
  have hp := h.pc_ok hq
  cases hg with
  | fault hr => exact hr
  | notFound | alreadyUnmapped => trivial
  | populate hh hk => exact ⟨hk, hh⟩
  | unmap hh => exact hh
  | denied => exact ⟨hp.1.kind, fun hc => by simp at hc⟩
  | mapped hu =>
    rename_i x
    refine ⟨⟨?_, hp.1, subset_rfl⟩, fun _ => hp.2⟩
    intro hx
    have hr := (h.refs.handle c x hp.2).1
    have hl : x ∈ s.live := h.live_of_mem (c := c) (by rw [hq]; exact List.mem_cons_self)
    obtain ⟨d, hd⟩ := h.refs.unlinked x hl hr hx hu
    have := (h.alone hd c).1
    have := hp.2
    omega
  | notMapped hu => exact ⟨hp.1, fun _ => hp.2⟩
  | skip hn hpr =>
    obtain ⟨h1, h2⟩ := hp
    exact ⟨⟨h1.linked, h1.kind, (Set.Ico_subset_Ico_left (Nat.le_succ _)).trans h1.pages⟩, h2⟩
  | populated hn => exact ⟨hp.1.kind, hp.2⟩
  | enter hu =>
    rename_i x
    obtain ⟨hr, hk⟩ := h.refs.handle c x hp
    refine ⟨fun hx => ?_, hk⟩
    have hl : x ∈ s.live := h.live_of_mem (c := c) (by rw [hq]; exact List.mem_cons_self)
    obtain ⟨d, hd⟩ := h.refs.unlinked x hl hr hx hu
    have := (h.alone hd c).1
    have : 0 < s.handles c x := hp
    omega
  | child hk hy hfirst => exact ⟨hy, hp⟩
  | noChild hk hy =>
    rename_i x above
    refine ⟨hp, hy, ?_, fun hc => by simp [hk] at hc⟩
    by_contra hl
    obtain ⟨d, hd⟩ := h.locks.exists_mutex (by simpa using hl)
    have := (h.pcs d).kind_of_mutex hd
    simp [hk] at this
  | mapping hk => exact ⟨hp, hk⟩
  | untouched hi he =>
    rename_i x i above
    refine ⟨hp.1, hp.2.1, fun n hn => ⟨fun hlt => ?_, fun hle => (hp.2.2 n hn).2 (by omega)⟩⟩
    rcases Nat.lt_succ_iff_lt_or_eq.mp (show n < s.firstPage x + i + 1 by omega) with hlt | rfl
    · exact (hp.2.2 n hn).1 hlt
    · rw [he]
      exact fun hpr => by simp [LeafEntry.Present] at hpr
  | invalidated hi =>
    rename_i x i above
    refine ⟨hp.1, hp.2.1, fun n hn => ⟨fun hlt => ?_, (hp.2.2 n hn).1 ?_⟩⟩
    · have := hn.1
      omega
    · have := hn.2
      omega
  | nothing hi he =>
    rename_i x i above
    refine ⟨hp.1, hp.2.1, fun n hn => ⟨fun hlt => ?_, (hp.2.2 n hn).2⟩⟩
    rcases Nat.lt_succ_iff_lt_or_eq.mp (show n < s.firstPage x + i + 1 by omega) with hlt | rfl
    · exact (hp.2.2 n hn).1 hlt
    · exact he
  | freed hi =>
    rename_i x i above
    refine ⟨hp.1, hp.2.1, fun n hn => (hp.2.2 n hn).1 ?_⟩
    have := hn.2
    omega

omit [DecidableEq ι] in
theorem pcs_lockShared (h : s.Inv roots) (hq : (s.pc c).beforeShared = some q) :
    s.PcOk roots c q := by
  generalize hc : s.pc c = q₀ at hq
  have hp := h.pc_ok hc
  cases q₀ <;> simp only [VmarPc.beforeShared, reduceCtorEq, Option.some.injEq] at hq <;>
    subst hq <;> exact hp

omit [DecidableEq ι] in
theorem pcs_unlockShared (h : s.Inv roots) (hq : (s.pc c).afterShared = some q) :
    s.PcOk roots c q := by
  generalize hc : s.pc c = q₀ at hq
  have hp := h.pc_ok hc
  cases q₀ <;> simp only [VmarPc.afterShared, reduceCtorEq, Option.some.injEq] at hq <;> subst hq
  · exact ⟨hp, fun hw => by simp at hw⟩
  · trivial

omit [DecidableEq ι] in
theorem pcs_lockExclusive (h : s.Inv roots) (hq : (s.pc c).beforeExclusive = some q) :
    s.PcOk roots c q := by
  generalize hc : s.pc c = q₀ at hq
  have hp := h.pc_ok hc
  cases q₀ <;> simp only [VmarPc.beforeExclusive, reduceCtorEq, Option.some.injEq] at hq <;>
    subst hq <;> exact hp

omit [DecidableEq ι] in
theorem pcs_unlockExclusive (h : s.Inv roots) (hq : (s.pc c).afterExclusive = some q) :
    s.PcOk roots c q := by
  generalize hc : s.pc c = q₀ at hq
  have hp := h.pc_ok hc
  cases q₀ <;> simp only [VmarPc.afterExclusive, reduceCtorEq, Option.some.injEq] at hq <;> subst hq
  · exact hp
  · trivial

theorem pcs_lockMutex (h : s.Inv roots) (hq : (s.pc c).beforeMutex = some (x, q)) (d : ι) :
    ((s.setMutex x true).setPc c q).PcOk roots d (((s.setMutex x true).setPc c q).pc d) := by
  have hcase : 0 < (s.pc c).shared ∨ 0 < (s.pc c).exclusive := by
    generalize s.pc c = q₀ at hq
    cases q₀ with
    | findMutex | populateMutex => exact Or.inl Nat.one_pos
    | unmap => exact Or.inr Nat.one_pos
    | _ => simp [VmarPc.beforeMutex] at hq
  refine pcs_moved rfl ?_ (fun d hd => ?_) d
  · suffices hok : s.PcOk roots c q ∧ q.mutex = some x by
      refine hok.1.congr ⟨rfl, rfl, rfl, rfl, rfl⟩ rfl (fun _ _ => rfl) ?_
        (fun _ _ _ _ => rfl) fun _ hf => hf
      rintro y above rfl
      simp [VmarPc.mutex] at hok
    generalize hc : s.pc c = q₀ at hq
    have hp := h.pc_ok hc
    cases q₀ with
    | findMutex y n | populateMutex y =>
      obtain ⟨rfl, rfl⟩ := Prod.mk.inj (Option.some.inj hq)
      exact ⟨hp, rfl⟩
    | unmap phase y above =>
      cases phase with
      | lock =>
        obtain ⟨rfl, rfl⟩ := Prod.mk.inj (Option.some.inj hq)
        refine ⟨⟨hp.1, hp.2, fun n hn => ⟨fun hlt => ?_, fun _ hst => ?_⟩⟩, rfl⟩
        · have := hn.1
          omega
        · -- a stale entry is one of the core that unmaps, and that is this one
          obtain ⟨e, z, he, -⟩ := h.leaves.stale n hst
          obtain rfl := h.locks.eq_of_exclusive (c := c) (by rw [hc]; exact Nat.one_pos)
            (exclusive_of_frees he)
          simp [hc, VmarPc.Frees] at he
      | _ => simp [VmarPc.beforeMutex] at hq
    | _ => simp [VmarPc.beforeMutex] at hq
  · refine h.others hd ⟨rfl, rfl, rfl, rfl, rfl⟩ rfl (fun _ _ => rfl) (fun y above hy hl => ?_)
      (fun _ => Or.inl rfl) fun _ hf => hf
    have hex : 0 < (s.pc d).exclusive := by
      rw [hy]
      exact Nat.one_pos
    rcases hcase with hs | he
    · exact absurd hs (h.not_shared hex c)
    · exact absurd (h.locks.eq_of_exclusive hex he) hd

theorem pcs_unlockMutex (h : s.Inv roots) (hq : (s.pc c).afterMutex = some (x, q)) (d : ι) :
    ((s.setMutex x false).setPc c q).PcOk roots d (((s.setMutex x false).setPc c q).pc d) := by
  refine pcs_moved rfl ?_ (fun d hd => ?_) d
  · generalize hc : s.pc c = q₀ at hq
    have hp := h.pc_ok hc
    cases q₀ with
    | populateUnlock w y =>
      cases w <;> obtain ⟨rfl, rfl⟩ := Prod.mk.inj (Option.some.inj hq) <;> trivial
    | unmap phase y above =>
      cases phase with
      | unlock =>
        obtain ⟨rfl, rfl⟩ := Prod.mk.inj (Option.some.inj hq)
        have hv : SameVmars s ((s.setMutex y false).setPc c (.unmap .unlink y above)) :=
          ⟨rfl, rfl, rfl, rfl, rfl⟩
        refine ⟨hv.path hp.1, h.tree.childless (by simp [hp.2.1]), ?_, fun _ => hp.2.2⟩
        simp
      | _ => simp [VmarPc.afterMutex] at hq
    | _ => simp [VmarPc.afterMutex] at hq
  · refine h.others hd ⟨rfl, rfl, rfl, rfl, rfl⟩ rfl (fun _ _ => rfl) (fun y above hy hl => ?_)
      (fun _ => Or.inl rfl) fun _ hf => hf
    by_cases hyx : y = x
    · simp [hyx]
    · simp [hyx, hl]

/-- A new vmar is not one that somebody else has a reference to. -/
theorem ne_of_ref (h : s.Inv roots) (hx : s.Linked x ∨ 0 < s.handles c x ∨
    (s.pc c).ref = some x) (hd : (s.pc d).made = some y) : y ≠ x := by
  rintro rfl
  obtain ⟨h1, h2, -⟩ := h.alone hd c
  rcases hx with hx | hx | hx
  · exact hx ((h.pcs d).new_of_made hd).unlinked
  · omega
  · exact h2 hx

/-- A reference is taken or dropped, and nothing else. -/
theorem others_refs (h : s.Inv roots) (hd : d ≠ c) (hv : SameVmars s s')
    (hh : s'.handles d = s.handles d)
    (hx : s.Linked x ∨ 0 < s.handles c x ∨ (s.pc c).ref = some x)
    (hr : ∀ y ≠ x, s'.refCount y = s.refCount y) (hm : s'.pageTableLock = s.pageTableLock)
    (hl : s'.leaf = s.leaf) (hf : s'.holder = s.holder) : s'.PcOk roots d (s.pc d) := by
  refine h.others hd hv hh (fun y hy => hr y (h.ne_of_ref hx hy)) (fun y _ _ hy => hm ▸ hy)
    (fun n => Or.inl (by rw [hl])) fun f hy => hf ▸ hy

theorem pcs_found (h : s.Inv roots) (hr : s.pc c = .find p n) (hb : Below s.parent x p)
    (hk : s.kind x = .mapping) (hn : n ∈ s.pages x) (d : ι) :
    ((s.objectGet x).setPc c (.findMutex x n)).PcOk roots d
      (((s.objectGet x).setPc c (.findMutex x n)).pc d) := by
  have hx : s.Linked x := by
    rcases Relation.ReflTransGen.cases_head hb with rfl | ⟨y, hy, -⟩
    · simp [(h.tree.root x (h.pc_ok hr)).1] at hk
    · simp [Linked, hy]
  have hv : SameVmars s ((s.objectGet x).setPc c (.findMutex x n)) := ⟨rfl, rfl, rfl, rfl, rfl⟩
  refine pcs_moved rfl ?_ (fun d hd => ?_) d
  · refine hv.covers ⟨hx, hk, fun m hm => ?_⟩
    obtain rfl : m = n := Nat.le_antisymm (Nat.lt_succ_iff.mp hm.2) hm.1
    exact hn
  · refine h.others_refs hd ⟨rfl, rfl, rfl, rfl, rfl⟩ rfl (Or.inl hx) (fun y hy => ?_) rfl rfl rfl
    simp [hy]

theorem pcs_take {w : Populator} (h : s.Inv roots) (hc : s.pc c = .populate w x n stop)
    (hn : n < stop) (he : ¬ (s.leaf n).Present) (hf : s.holder f = .allocator) (d : ι) :
    ((s.setHolder f (.core c)).setPc c (.store w x n stop f)).PcOk roots d
      (((s.setHolder f (.core c)).setPc c (.store w x n stop f)).pc d) := by
  have hp := h.pc_ok hc
  have ho : Owns (s.pc c) x := by
    rw [hc]
    exact ⟨List.mem_cons_self, Or.inl rfl⟩
  have hstale : ¬ (s.leaf n).Stale :=
    h.not_stale ho (hp.1.pages ⟨le_rfl, hn⟩) (by simp [hc, VmarPc.Frees])
  have hempty : s.leaf n = .empty := by
    cases hl : s.leaf n with
    | empty => rfl
    | present g => exact absurd ⟨g, hl⟩ he
    | stale g => exact absurd ⟨g, hl⟩ hstale
  have hv : SameVmars s ((s.setHolder f (.core c)).setPc c (.store w x n stop f)) :=
    ⟨rfl, rfl, rfl, rfl, rfl⟩
  refine pcs_moved rfl ?_ (fun d hd => ?_) d
  · exact ⟨hv.covers hp.1, hp.2, hn, hempty, Function.update_self ..⟩
  · refine h.others hd ⟨rfl, rfl, rfl, rfl, rfl⟩ rfl (fun _ _ => rfl) (fun _ _ _ hl => hl)
      (fun _ => Or.inl rfl) fun g hg => ?_
    have hgf : g ≠ f := by
      rintro rfl
      simp [hf] at hg
    simp [hgf, hg]

theorem pcs_store {w : Populator} (h : s.Inv roots) (hc : s.pc c = .store w x n stop f) (d : ι) :
    ((s.install n f).setPc c (.populate w x (n + 1) stop)).PcOk roots d
      (((s.install n f).setPc c (.populate w x (n + 1) stop)).pc d) := by
  obtain ⟨h1, h2, h3, h4, h5⟩ := h.pc_ok hc
  have ho : Owns (s.pc c) x := by
    rw [hc]
    exact ⟨List.mem_cons_self, Or.inl rfl⟩
  have hv : SameVmars s ((s.install n f).setPc c (.populate w x (n + 1) stop)) :=
    ⟨rfl, rfl, rfl, rfl, rfl⟩
  refine pcs_moved rfl ?_ (fun d hd => ?_) d
  · refine ⟨hv.covers ⟨h1.linked, h1.kind, ?_⟩, h2⟩
    exact (Set.Ico_subset_Ico_left (Nat.le_succ n)).trans h1.pages
  · refine h.others hd ⟨rfl, rfl, rfl, rfl, rfl⟩ rfl (fun _ _ => rfl) (fun _ _ _ hl => hl)
      (fun m => ?_) fun g hg => ?_
    · by_cases hm : m = n
      · exact Or.inr ⟨x, ho, hm ▸ h1.pages ⟨le_rfl, h3⟩⟩
      · exact Or.inl (by simp [hm])
    · have hgf : g ≠ f := by
        rintro rfl
        rw [h5] at hg
        exact hd (FrameHolder.core.inj hg).symm
      simp [hgf, hg]

omit [Fintype ι] [DecidableEq ι] in
theorem mem_pages_add {i : ℕ} (hi : i < s.pageCount x) : s.firstPage x + i ∈ s.pages x :=
  ⟨Nat.le_add_right _ _, by omega⟩

theorem pcs_invalidate {i : ℕ} (h : s.Inv roots) (hc : s.pc c = .unmap (.invalidate i) x above)
    (hi : i < s.pageCount x) (d : ι) :
    ((s.invalidate (s.firstPage x + i) f).setPc c
      (.unmap (.invalidate (i + 1)) x above)).PcOk roots d
      (((s.invalidate (s.firstPage x + i) f).setPc c
        (.unmap (.invalidate (i + 1)) x above)).pc d) := by
  obtain ⟨h1, h2, h3⟩ := h.pc_ok hc
  have ho : Owns (s.pc c) x := by
    rw [hc]
    exact ⟨List.mem_cons_self, Or.inl rfl⟩
  have hv : SameVmars s ((s.invalidate (s.firstPage x + i) f).setPc c
    (.unmap (.invalidate (i + 1)) x above)) := ⟨rfl, rfl, rfl, rfl, rfl⟩
  refine pcs_moved rfl ?_ (fun d hd => ?_) d
  · refine ⟨hv.path h1, h2, fun n hn => ?_⟩
    change (n < s.firstPage x + (i + 1) → ¬ (Function.update s.leaf _ _ n).Present) ∧
      (s.firstPage x + (i + 1) ≤ n → ¬ (Function.update s.leaf _ _ n).Stale)
    obtain ⟨h3, h4⟩ := h3 n hn
    by_cases hni : n = s.firstPage x + i
    · subst hni
      rw [Function.update_self]
      exact ⟨fun _ hpr => by simp [LeafEntry.Present] at hpr, fun hle => by omega⟩
    · rw [Function.update_of_ne hni]
      exact ⟨fun hlt => h3 (by omega), fun hle => h4 (by omega)⟩
  · refine h.others hd ⟨rfl, rfl, rfl, rfl, rfl⟩ rfl (fun _ _ => rfl) (fun _ _ _ hl => hl)
      (fun m => ?_) fun g hg => hg
    by_cases hm : m = s.firstPage x + i
    · exact Or.inr ⟨x, ho, hm ▸ mem_pages_add hi⟩
    · exact Or.inl (by simp [hm])

theorem pcs_free {i : ℕ} (h : s.Inv roots) (hc : s.pc c = .unmap (.free i) x above)
    (hi : i < s.pageCount x) (hf : (s.leaf (s.firstPage x + i)).frame = some f) (d : ι) :
    ((s.freePage (s.firstPage x + i) f).setPc c (.unmap (.free (i + 1)) x above)).PcOk roots d
      (((s.freePage (s.firstPage x + i) f).setPc c (.unmap (.free (i + 1)) x above)).pc d) := by
  obtain ⟨h1, h2, h3⟩ := h.pc_ok hc
  have ho : Owns (s.pc c) x := by
    rw [hc]
    exact ⟨List.mem_cons_self, Or.inl rfl⟩
  have hv : SameVmars s ((s.freePage (s.firstPage x + i) f).setPc c
    (.unmap (.free (i + 1)) x above)) := ⟨rfl, rfl, rfl, rfl, rfl⟩
  refine pcs_moved rfl ?_ (fun d hd => ?_) d
  · refine ⟨hv.path h1, h2, fun n hn => ?_⟩
    change (n < s.firstPage x + (i + 1) → Function.update s.leaf _ _ n = .empty) ∧
      ¬ (Function.update s.leaf _ _ n).Present
    obtain ⟨h3, h4⟩ := h3 n hn
    by_cases hni : n = s.firstPage x + i
    · subst hni
      rw [Function.update_self]
      exact ⟨fun _ => rfl, fun hpr => by simp [LeafEntry.Present] at hpr⟩
    · rw [Function.update_of_ne hni]
      exact ⟨fun hlt => h3 (by omega), h4⟩
  · refine h.others hd ⟨rfl, rfl, rfl, rfl, rfl⟩ rfl (fun _ _ => rfl) (fun _ _ _ hl => hl)
      (fun m => ?_) fun g hg => ?_
    · by_cases hm : m = s.firstPage x + i
      · exact Or.inr ⟨x, ho, hm ▸ mem_pages_add hi⟩
      · exact Or.inl (by simp [hm])
    · have hgf : g ≠ f := by
        rintro rfl
        simp [(h.frames.leaf _ g).mp hf] at hg
      simp [hgf, hg]

end Inv

end VmarCores

end Tomato
