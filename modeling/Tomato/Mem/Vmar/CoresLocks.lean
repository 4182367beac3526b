import Tomato.Mem.Vmar.CoresInvariant

/-!
# The locks and the references of the cores

What a step does to the words of the locks and to the reference counts is what it does to the
counts of its core. From the sums it follows who can be in a critical section at the same time.
-/

namespace Tomato

open Forest Tally

namespace VmarPc

variable {q q' : VmarPc} {x : ℕ}

theorem beforeShared_counts (h : q.beforeShared = some q') :
    q.shared = 0 ∧ q'.shared = 1 ∧ q'.exclusive = q.exclusive ∧ q'.mutex = q.mutex ∧
      q'.ref = q.ref ∧ q'.made = q.made := by
  cases q <;> simp only [beforeShared, reduceCtorEq, Option.some.injEq] at h <;> subst h <;>
    exact ⟨rfl, rfl, rfl, rfl, rfl, rfl⟩

theorem afterShared_counts (h : q.afterShared = some q') :
    q.shared = 1 ∧ q'.shared = 0 ∧ q'.exclusive = q.exclusive ∧ q'.mutex = q.mutex ∧
      q'.ref = q.ref ∧ q'.made = q.made := by
  cases q <;> simp only [afterShared, reduceCtorEq, Option.some.injEq] at h <;> subst h <;>
    exact ⟨rfl, rfl, rfl, rfl, rfl, rfl⟩

theorem beforeExclusive_counts (h : q.beforeExclusive = some q') :
    q.exclusive = 0 ∧ q'.exclusive = 1 ∧ q'.shared = q.shared ∧ q'.mutex = q.mutex ∧
      q'.ref = q.ref ∧ q'.made = q.made := by
  cases q <;> simp only [beforeExclusive, reduceCtorEq, Option.some.injEq] at h <;> subst h <;>
    exact ⟨rfl, rfl, rfl, rfl, rfl, rfl⟩

theorem afterExclusive_counts (h : q.afterExclusive = some q') :
    q.exclusive = 1 ∧ q'.exclusive = 0 ∧ q'.shared = q.shared ∧ q'.mutex = q.mutex ∧
      q'.ref = q.ref ∧ q'.made = q.made := by
  cases q <;> simp only [afterExclusive, reduceCtorEq, Option.some.injEq] at h <;> subst h <;>
    exact ⟨rfl, rfl, rfl, rfl, rfl, rfl⟩

theorem beforeMutex_counts (h : q.beforeMutex = some (x, q')) :
    q.mutex = none ∧ q'.mutex = some x ∧ q'.shared = q.shared ∧ q'.exclusive = q.exclusive ∧
      q'.ref = q.ref ∧ q'.made = q.made := by
  cases q with
  | unmap phase y above =>
    cases phase <;> simp only [beforeMutex, reduceCtorEq, Option.some.injEq, Prod.mk.injEq] at h
    obtain ⟨rfl, rfl⟩ := h
    exact ⟨rfl, rfl, rfl, rfl, rfl, rfl⟩
  | findMutex | populateMutex =>
    simp only [beforeMutex, Option.some.injEq, Prod.mk.injEq] at h
    obtain ⟨rfl, rfl⟩ := h
    exact ⟨rfl, rfl, rfl, rfl, rfl, rfl⟩
  | _ => simp [beforeMutex] at h

theorem afterMutex_counts (h : q.afterMutex = some (x, q')) :
    q.mutex = some x ∧ q'.mutex = none ∧ q'.shared = q.shared ∧ q'.exclusive = q.exclusive ∧
      q'.ref = q.ref ∧ q'.made = q.made := by
  cases q with
  | unmap phase y above =>
    cases phase <;> simp only [afterMutex, reduceCtorEq, Option.some.injEq, Prod.mk.injEq] at h
    obtain ⟨rfl, rfl⟩ := h
    exact ⟨rfl, rfl, rfl, rfl, rfl, rfl⟩
  | populateUnlock by_ y =>
    cases by_ <;> simp only [afterMutex, Option.some.injEq, Prod.mk.injEq] at h <;>
      obtain ⟨rfl, rfl⟩ := h <;> exact ⟨rfl, rfl, rfl, rfl, rfl, rfl⟩
  | _ => simp [afterMutex] at h

theorem unmapped_counts (above : List ℕ) :
    (unmapped above).exclusive = 1 ∧ (unmapped above).shared = 0 ∧ (unmapped above).mutex = none ∧
      (unmapped above).ref = none ∧ (unmapped above).made = none := by
  cases above <;> exact ⟨rfl, rfl, rfl, rfl, rfl⟩

theorem refs_congr (hr : q'.ref = q.ref) (hm : q'.made = q.made) : q'.refs x = q.refs x := by
  rw [refs, refs, hr, hm]

theorem mutexes_congr (h : q'.mutex = q.mutex) : q'.mutexes x = q.mutexes x := by
  rw [mutexes, mutexes, h]

theorem two_le_refs (h : q.made = some x) : 2 ≤ q.refs x := by
  rw [refs, if_pos h]
  omega

theorem refs_pos_of_ref (h : q.ref = some x) : 0 < q.refs x := by
  rw [refs, if_pos h]
  omega

theorem mem_vmars_of_pinned (h : x ∈ q.pinned) : x ∈ q.vmars := by
  cases q with
  | mapLock p y n | mapPlace p y n => exact List.mem_cons_of_mem p h
  | findMutex | findUnlock | populate | store | mapFail | mapFree | unmap => exact h
  | _ => simp [pinned] at h

theorem mem_vmars_of_made (h : q.made = some x) : x ∈ q.vmars := by
  cases q with
  | mapLock p y n | mapPlace p y n =>
    obtain rfl := Option.some.inj h
    exact List.mem_cons_of_mem p List.mem_cons_self
  | mapFail y | mapFree y =>
    obtain rfl := Option.some.inj h
    exact List.mem_cons_self
  | _ => simp [made] at h

end VmarPc

namespace VmarCores

variable {ι : Type*} [Fintype ι] {roots : Finset ℕ} {s s' : VmarCores ι} {c d : ι}
  {q : VmarPc} {x y n : ℕ}

namespace LocksOk

theorem congr (h : s.LocksOk) (hpc : s'.pc = s.pc) (hr : s'.readers = s.readers)
    (hw : s'.writer = s.writer) (hm : s'.pageTableLock = s.pageTableLock) : s'.LocksOk := by
  refine ⟨?_, ?_, ?_, fun x => ?_⟩
  · rw [hr, hpc, h.readers]
  · rw [hw, hpc, h.writer]
  · rw [hw, hr]
    exact h.apart
  · rw [hm, hpc, h.mutex]

theorem tally_exclusive_le (h : s.LocksOk) : tally VmarPc.exclusive s.pc ≤ 1 :=
  h.writer ▸ Bool.toNat_le _

theorem tally_mutexes_le (h : s.LocksOk) (x : ℕ) : tally (VmarPc.mutexes x) s.pc ≤ 1 :=
  h.mutex x ▸ Bool.toNat_le _

theorem writer_of_exclusive (h : s.LocksOk) (hc : 0 < (s.pc c).exclusive) : s.writer = true := by
  have h1 := le_tally VmarPc.exclusive s.pc c
  have h2 := h.writer
  by_contra hw
  rw [Bool.not_eq_true] at hw
  rw [hw, Bool.toNat_false] at h2
  omega

theorem readers_of_shared (h : s.LocksOk) (hc : 0 < (s.pc c).shared) : s.readers ≠ 0 := by
  have h1 := le_tally VmarPc.shared s.pc c
  have h2 := h.readers
  omega

/-- Nobody reads the tree while somebody changes it. -/
theorem shared_eq_zero (h : s.LocksOk) (hd : 0 < (s.pc d).exclusive) (c : ι) :
    (s.pc c).shared = 0 := by
  by_contra hc
  exact h.readers_of_shared (Nat.pos_of_ne_zero hc) (h.apart (h.writer_of_exclusive hd))

theorem lock_of_mutex (h : s.LocksOk) (hc : (s.pc c).mutex = some x) :
    s.pageTableLock x = true := by
  have h1 := le_tally (VmarPc.mutexes x) s.pc c
  have h2 := h.mutex x
  have h3 : (s.pc c).mutexes x = 1 := if_pos hc
  by_contra hl
  rw [Bool.not_eq_true] at hl
  rw [hl, Bool.toNat_false] at h2
  omega

theorem exists_mutex (h : s.LocksOk) (hl : s.pageTableLock x = true) :
    ∃ c, (s.pc c).mutex = some x := by
  have h2 := h.mutex x
  rw [hl, Bool.toNat_true] at h2
  obtain ⟨c, hc⟩ := exists_pos (g := VmarPc.mutexes x) (p := s.pc) (by omega)
  refine ⟨c, ?_⟩
  by_contra hne
  simp [VmarPc.mutexes, hne] at hc

end LocksOk

theorem RefsOk.refs_of_tree (h : s.RefsOk roots) (hx : x ∈ roots ∨ s.Linked x) :
    s.refCount x ≠ 0 := by
  have h1 := h.refs x
  rw [treeRefs, if_pos hx] at h1
  omega

theorem RefsOk.refs_pos (h : s.RefsOk roots) (hx : x ∈ roots ∨ s.Linked x ∨ 0 < s.handles c x ∨
    0 < (s.pc c).refs x) : s.refCount x ≠ 0 := by
  have h1 := le_tally (fun h : ℕ → ℕ => h x) s.handles c
  have h2 := le_tally (VmarPc.refs x) s.pc c
  have h3 := h.refs x
  rcases hx with hx | hx | hx | hx
  · exact h.refs_of_tree (Or.inl hx)
  · exact h.refs_of_tree (Or.inr hx)
  · omega
  · omega

omit [Fintype ι] in
theorem Goto.counts {q q' : VmarPc} (h : s.Goto roots c q q') :
    q'.shared = q.shared ∧ q'.exclusive = q.exclusive ∧ q'.mutex = q.mutex ∧ q'.ref = q.ref ∧
      q'.made = q.made := by
  cases h with
  | @skip by_ | @populated by_ => cases by_ <;> exact ⟨rfl, rfl, rfl, rfl, rfl⟩
  | _ => exact ⟨rfl, rfl, rfl, rfl, rfl⟩

variable [DecidableEq ι]

namespace LocksOk

/-- The words of the locks change as the counts of the core that moves. -/
theorem moved (h : s.LocksOk) (hpc : s'.pc = Function.update s.pc c q)
    (hr : s'.readers + (s.pc c).shared = s.readers + q.shared)
    (hw : s'.writer.toNat + (s.pc c).exclusive = s.writer.toNat + q.exclusive)
    (ha : s'.writer = true → s'.readers = 0)
    (hm : ∀ x, (s'.pageTableLock x).toNat + (s.pc c).mutexes x =
      (s.pageTableLock x).toNat + q.mutexes x) : s'.LocksOk := by
  refine ⟨?_, ?_, ha, fun x => ?_⟩
  · have h1 := tally_update VmarPc.shared s.pc c q
    have h2 := h.readers
    rw [hpc]
    omega
  · have h1 := tally_update VmarPc.exclusive s.pc c q
    have h2 := h.writer
    rw [hpc]
    omega
  · have h1 := tally_update (VmarPc.mutexes x) s.pc c q
    have h2 := h.mutex x
    have h3 := hm x
    rw [hpc]
    omega

/-- A step that is not one of the locks. -/
theorem keep (h : s.LocksOk) (hpc : s'.pc = Function.update s.pc c q)
    (hr : s'.readers = s.readers) (hw : s'.writer = s.writer)
    (hm : s'.pageTableLock = s.pageTableLock) (hqs : q.shared = (s.pc c).shared)
    (hqe : q.exclusive = (s.pc c).exclusive) (hqm : q.mutex = (s.pc c).mutex) : s'.LocksOk := by
  refine h.moved hpc (by rw [hr, hqs]) (by rw [hw, hqe]) ?_ fun x => ?_
  · rw [hw, hr]
    exact h.apart
  · rw [hm, VmarPc.mutexes_congr hqm]

theorem eq_of_exclusive (h : s.LocksOk) (hc : 0 < (s.pc c).exclusive)
    (hd : 0 < (s.pc d).exclusive) : c = d :=
  eq_of_tally_le_one h.tally_exclusive_le hc hd

theorem eq_of_mutex (h : s.LocksOk) (hc : (s.pc c).mutex = some x) (hd : (s.pc d).mutex = some x) :
    c = d := by
  have hc' : (s.pc c).mutexes x = 1 := if_pos hc
  have hd' : (s.pc d).mutexes x = 1 := if_pos hd
  exact eq_of_tally_le_one (h.tally_mutexes_le x) (by omega) (by omega)

end LocksOk

namespace RefsOk

/-- The reference counts change as those of the core that moves, and as the tree. -/
theorem refs_moved (h : s.RefsOk roots) {g : ℕ → ℕ} (hpc : s'.pc = Function.update s.pc c q)
    (hh : s'.handles = Function.update s.handles c g)
    (he : s'.refCount x + (s.treeRefs roots x + s.handles c x + (s.pc c).refs x) =
      s.refCount x + (s'.treeRefs roots x + g x + q.refs x)) :
    s'.refCount x = s'.treeRefs roots x +
      (tally (fun h => h x) s'.handles + tally (VmarPc.refs x) s'.pc) := by
  have h1 := tally_update (fun h : ℕ → ℕ => h x) s.handles c g
  have h2 := tally_update (VmarPc.refs x) s.pc c q
  have h3 := h.refs x
  rw [hpc, hh]
  omega

/-- Only the core that allocates a vmar has it. -/
theorem alone (h : s.RefsOk roots) (hn : s.New roots x) (hc : (s.pc c).made = some x) (d : ι) :
    s.handles d x = 0 ∧ (s.pc d).ref ≠ some x ∧ (d ≠ c → (s.pc d).made ≠ some x) := by
  have h1 := le_tally (fun h : ℕ → ℕ => h x) s.handles d
  have h2 := le_tally (VmarPc.refs x) s.pc c
  have h3 := h.refs x
  have h4 := VmarPc.two_le_refs hc
  have h5 := hn.refCount
  have hrefs : (s.pc c).refs x = 2 := by omega
  have hothers : d ≠ c → (s.pc d).refs x = 0 := by
    intro hne
    have := add_le_tally (VmarPc.refs x) s.pc hne
    omega
  refine ⟨by omega, fun hr => ?_, fun hne hm => ?_⟩
  · by_cases hdc : d = c
    · subst hdc
      rw [VmarPc.refs, if_pos hr, if_pos hc] at hrefs
      omega
    · have := VmarPc.refs_pos_of_ref hr
      have := hothers hdc
      omega
  · have := VmarPc.two_le_refs hm
    have := hothers hne
    omega

end RefsOk

end VmarCores

end Tomato
