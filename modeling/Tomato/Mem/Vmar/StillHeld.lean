import Tomato.Mem.Stack

/-!
# The blocks that are handed out

No call on a vmar takes a block from a client of the physical allocator: only a client that frees
its block has it no longer. So the slabs of other types stay where they are.
-/

namespace Tomato

open Blocks Transition

namespace VirtState

variable {d : DirectMap} {entries : Memmap} {vs vs' vs'' : VirtState} {o : Option ℕ} {size b : ℕ}
  {c : VirtCall}

/-- The clients of the allocator have all the pages that they had. -/
def StillHeld (vs vs' : VirtState) : Prop :=
  ∀ b, block b 6 ∈ vs.boot.clients.live → block b 6 ∈ vs'.boot.clients.live

theorem StillHeld.refl (vs : VirtState) : StillHeld vs vs := fun _ hb => hb

theorem StillHeld.trans (h : StillHeld vs vs') (h' : StillHeld vs' vs'') : StillHeld vs vs'' :=
  fun b hb => h' b (h b hb)

theorem physAlloc_stillHeld (he : vs.physAlloc d size = some (o, vs')) : StillHeld vs vs' := by
  obtain ⟨⟨p, s⟩, -, he⟩ := Option.map_eq_some_iff.mp he
  obtain ⟨-, rfl⟩ := Prod.mk.inj he
  intro b hb
  cases p with
  | none => exact hb
  | some p => exact List.mem_cons_of_mem _ hb

theorem makeGlobal_stillHeld {base count : ℕ}
    (he : vs.exec d entries (.makeGlobal base count) = some vs') : StillHeld vs vs' := by
  obtain ⟨s, -, rfl⟩ := Option.map_eq_some_iff.mp he
  exact .refl _

theorem populate_stillHeld {base count : ℕ} {globalPage : Bool}
    (he : vs.exec d entries (.populate base count globalPage) = some vs') : StillHeld vs vs' := by
  obtain ⟨s, -, rfl⟩ := Option.map_eq_some_iff.mp he
  exact .refl _

theorem free_stillHeld {base count : ℕ}
    (he : vs.exec d entries (.free base count) = some vs') : StillHeld vs vs' := by
  obtain ⟨s, -, rfl⟩ := Option.map_eq_some_iff.mp he
  exact .refl _

end VirtState

open VirtState (StillHeld)

theorem SlabPage.stillHeld {d : DirectMap} {entries : Memmap} {vs vs' : VirtState}
    (h : SlabPage d entries vs vs') : StillHeld vs vs' := by
  rcases h with rfl | ⟨p, vs1, e1, h⟩
  · exact .refl _
  have h1 := VirtState.physAlloc_stillHeld e1
  cases p with
  | none => exact h ▸ h1
  | some slab => exact h1.trans (VirtState.makeGlobal_stillHeld h)

namespace Vmm

variable {k : Kernel} {s s' : Vmm} {o : Option ℕ} {c p x n offset fuel : ℕ}

theorem allocVmar_stillHeld (he : s.allocVmar k = some (o, s')) : StillHeld s.virt s'.virt := by
  obtain ⟨⟨o', st⟩, e, he⟩ := Option.map_eq_some_iff.mp he
  obtain ⟨-, rfl⟩ := Prod.mk.inj he
  exact (Slabs.memAlloc_virt e).stillHeld

theorem freeVmar_virt (he : s.freeVmar k c = some s') : s'.virt = s.virt := by
  rw [freeVmar] at he
  split at he
  · obtain ⟨r, er, rfl⟩ := Option.map_eq_some_iff.mp he
    obtain ⟨st, es, rfl⟩ := Option.map_eq_some_iff.mp er
    exact (Slabs.memFree_created es).1
  · simp at he

theorem objectPut_virt (he : s.objectPut k c = some s') : s'.virt = s.virt := by
  simp only [objectPut] at he
  split at he
  · simp at he
  split at he
  · simp only [vmarFree] at he
    split at he
    · exact (freeVmar_virt he).trans rfl
    · simp at he
  · exact Option.some.inj he ▸ rfl

theorem failWith_virt {α : Type} {e : TomatoErr} {res : Except TomatoErr α}
    (he : s.failWith k c e = some (res, s')) : s'.virt = s.virt := by
  obtain ⟨s2, e2, he⟩ := Option.map_eq_some_iff.mp he
  obtain ⟨-, rfl⟩ := Prod.mk.inj he
  exact freeVmar_virt e2

theorem virtReservePageTables_stillHeld {base : ℕ} {res : Except TomatoErr Unit}
    (he : s.virtReservePageTables k base n = some (res, s')) : StillHeld s.virt s'.virt := by
  obtain ⟨⟨r, phys⟩, -, he⟩ := Option.map_eq_some_iff.mp he
  obtain ⟨-, rfl⟩ := Prod.mk.inj he
  exact .refl _

theorem vmarAllocate_stillHeld {res : Except TomatoErr ℕ}
    (he : s.vmarAllocate k p offset n = some (res, s')) : StillHeld s.virt s'.virt := by
  simp only [vmarAllocate, Option.bind_eq_bind] at he
  split at he
  · obtain ⟨-, rfl⟩ := Prod.mk.inj (Option.some.inj he)
    exact .refl _
  split at he
  · obtain ⟨-, rfl⟩ := Prod.mk.inj (Option.some.inj he)
    exact .refl _
  obtain ⟨⟨o, s1⟩, e1, he⟩ := Option.bind_eq_some_iff.mp he
  have h1 := allocVmar_stillHeld e1
  cases o with
  | none =>
    obtain ⟨-, rfl⟩ := Prod.mk.inj (Option.some.inj he)
    exact h1
  | some child =>
    obtain ⟨⟨res', v⟩, -, he⟩ := Option.bind_eq_some_iff.mp he
    cases res' with
    | error e =>
      have h2 : s'.virt = s1.virt := (failWith_virt (e := e) he).trans rfl
      exact h2 ▸ h1
    | ok u =>
      obtain ⟨-, rfl⟩ := Prod.mk.inj (Option.some.inj he)
      exact h1

theorem vmarMap_stillHeld {res : Except TomatoErr ℕ}
    (he : s.vmarMap k p offset n = some (res, s')) : StillHeld s.virt s'.virt := by
  simp only [vmarMap, Option.bind_eq_bind] at he
  split at he
  · obtain ⟨-, rfl⟩ := Prod.mk.inj (Option.some.inj he)
    exact .refl _
  split at he
  · obtain ⟨-, rfl⟩ := Prod.mk.inj (Option.some.inj he)
    exact .refl _
  obtain ⟨⟨o, s1⟩, e1, he⟩ := Option.bind_eq_some_iff.mp he
  have h1 := allocVmar_stillHeld e1
  cases o with
  | none =>
    obtain ⟨-, rfl⟩ := Prod.mk.inj (Option.some.inj he)
    exact h1
  | some child =>
    simp only at he
    split at he
    · have h2 : s'.virt = s1.virt := (failWith_virt he).trans rfl
      exact h2 ▸ h1
    · obtain ⟨⟨res', s2⟩, e2, he⟩ := Option.bind_eq_some_iff.mp he
      have h2 := virtReservePageTables_stillHeld e2
      cases res' with
      | error e =>
        have h3 : s'.virt = s2.virt := failWith_virt he
        exact h3 ▸ h1.trans h2
      | ok u =>
        obtain ⟨v, -, he⟩ := Option.map_eq_some_iff.mp he
        obtain ⟨-, rfl⟩ := Prod.mk.inj he
        exact h1.trans h2

theorem vmarPopulate_stillHeld {res : Except TomatoErr Unit}
    (he : s.vmarPopulate k x = some (res, s')) : StillHeld s.virt s'.virt := by
  simp only [vmarPopulate, Option.bind_eq_bind] at he
  split at he
  · obtain ⟨-, rfl⟩ := Prod.mk.inj (Option.some.inj he)
    exact .refl _
  obtain ⟨v, -, he⟩ := Option.bind_eq_some_iff.mp he
  split at he
  · obtain ⟨-, rfl⟩ := Prod.mk.inj (Option.some.inj he)
    exact .refl _
  · obtain ⟨s1, e1, he⟩ := Option.bind_eq_some_iff.mp he
    obtain ⟨-, rfl⟩ := Prod.mk.inj (Option.some.inj he)
    obtain ⟨vs, e2, rfl⟩ := Option.map_eq_some_iff.mp e1
    exact VirtState.populate_stillHeld e2

theorem lockChildren_stillHeld (lock : ℕ → Vmm → Option Vmm) {it : Option ℕ}
    (hlock : ∀ x s s', lock x s = some s' → StillHeld s.virt s'.virt)
    (he : lockChildren lock n it s = some s') : StillHeld s.virt s'.virt := by
  induction n generalizing it s with
  | zero =>
    cases it with
    | none => exact Option.some.inj he ▸ .refl _
    | some x => simp [lockChildren] at he
  | succ n ih =>
    cases it with
    | none => exact Option.some.inj he ▸ .refl _
    | some x =>
      obtain ⟨s1, e1, he⟩ := Option.bind_eq_some_iff.mp he
      exact (hlock _ _ _ e1).trans (ih he)

theorem vmarLockInternal_stillHeld (he : s.vmarLockInternal k fuel x = some s') :
    StillHeld s.virt s'.virt := by
  induction fuel generalizing x s s' with
  | zero => simp [vmarLockInternal] at he
  | succ fuel ih =>
    simp only [vmarLockInternal, Option.bind_eq_bind] at he
    split at he
    · have h1 : StillHeld (s.setVmars (s.vmars.setLocked x)).virt s'.virt :=
        lockChildren_stillHeld _ (fun x s s' h => ih h) he
      exact h1
    · obtain ⟨v, -, he⟩ := Option.bind_eq_some_iff.mp he
      obtain ⟨s1, e1, he⟩ := Option.bind_eq_some_iff.mp he
      obtain rfl := Option.some.inj he
      obtain ⟨vs, e2, rfl⟩ := Option.map_eq_some_iff.mp e1
      exact VirtState.makeGlobal_stillHeld e2
    · exact Option.some.inj he ▸ .refl _

theorem unmapChildren_stillHeld (unmap : ℕ → Vmm → Option Vmm) {it : Option ℕ}
    (hunmap : ∀ x s s', unmap x s = some s' → StillHeld s.virt s'.virt)
    (he : unmapChildren k unmap n it s = some s') : StillHeld s.virt s'.virt := by
  induction n generalizing it s with
  | zero =>
    cases it with
    | none => exact Option.some.inj he ▸ .refl _
    | some x => simp [unmapChildren] at he
  | succ n ih =>
    cases it with
    | none => exact Option.some.inj he ▸ .refl _
    | some x =>
      simp only [unmapChildren, Option.bind_eq_bind] at he
      split at he
      · simp at he
      split at he
      · simp at he
      obtain ⟨s1, e1, he⟩ := Option.bind_eq_some_iff.mp he
      obtain ⟨s2, e2, he⟩ := Option.bind_eq_some_iff.mp he
      have h1 := hunmap _ _ _ e1
      rw [← objectPut_virt e2] at h1
      exact h1.trans (ih he)

theorem vmarUnmapInternal_stillHeld (he : s.vmarUnmapInternal k fuel x = some s') :
    StillHeld s.virt s'.virt := by
  induction fuel generalizing x s s' with
  | zero => simp [vmarUnmapInternal] at he
  | succ fuel ih =>
    simp only [vmarUnmapInternal, Option.bind_eq_bind] at he
    split at he
    · simp at he
    split at he
    · simp at he
    obtain ⟨q, -, he⟩ := Option.bind_eq_some_iff.mp he
    split at he
    · simp at he
    split at he
    · obtain ⟨s1, e1, he⟩ := Option.bind_eq_some_iff.mp he
      obtain ⟨v, -, rfl⟩ := Option.map_eq_some_iff.mp he
      have h1 : StillHeld s.virt s1.virt := unmapChildren_stillHeld _ (fun x s s' h => ih h) e1
      exact h1
    · obtain ⟨v, -, he⟩ := Option.bind_eq_some_iff.mp he
      obtain ⟨s1, e1, he⟩ := Option.bind_eq_some_iff.mp he
      obtain ⟨v', -, rfl⟩ := Option.map_eq_some_iff.mp he
      obtain ⟨vs, e2, rfl⟩ := Option.map_eq_some_iff.mp e1
      exact VirtState.free_stillHeld e2
    · simp at he

theorem vmarUnmap_stillHeld (he : s.vmarUnmap k fuel x = some s') : StillHeld s.virt s'.virt := by
  rw [vmarUnmap] at he
  split at he
  · exact Option.some.inj he ▸ .refl _
  · obtain ⟨s1, e1, he⟩ := Option.bind_eq_some_iff.mp he
    exact objectPut_virt he ▸ vmarUnmapInternal_stillHeld e1

theorem leaveFault_virt {res res' : FaultResult}
    (he : s.leaveFault k x res = some (res', s')) : s'.virt = s.virt := by
  cases res with
  | killed =>
    obtain ⟨-, rfl⟩ := Prod.mk.inj (Option.some.inj he)
    rfl
  | returned err =>
    obtain ⟨s1, e1, he⟩ := Option.map_eq_some_iff.mp he
    obtain ⟨-, rfl⟩ := Prod.mk.inj he
    exact (objectPut_virt e1).trans rfl

theorem virtPageFaultHandler_stillHeld {address errorCode : ℕ} {res : FaultResult}
    (he : s.virtPageFaultHandler k fuel address errorCode = some (res, s')) :
    StillHeld s.virt s'.virt := by
  simp only [virtPageFaultHandler, Option.bind_eq_bind] at he
  split at he
  · obtain ⟨-, rfl⟩ := Prod.mk.inj (Option.some.inj he)
    exact .refl _
  obtain ⟨⟨o, v⟩, -, he⟩ := Option.bind_eq_some_iff.mp he
  cases o with
  | none =>
    obtain ⟨-, rfl⟩ := Prod.mk.inj (Option.some.inj he)
    exact .refl _
  | some vmar =>
    simp only at he
    split at he
    · exact (leaveFault_virt he).symm ▸ .refl _
    split at he
    · exact (leaveFault_virt he).symm ▸ .refl _
    · obtain ⟨s1, e1, he⟩ := Option.bind_eq_some_iff.mp he
      obtain ⟨vs, e2, rfl⟩ := Option.map_eq_some_iff.mp e1
      rw [leaveFault_virt he]
      exact VirtState.populate_stillHeld e2

end Vmm

end Tomato
