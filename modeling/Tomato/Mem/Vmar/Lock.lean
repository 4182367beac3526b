import Tomato.Mem.Vmar.Unmap

/-!
# Locking

`vmar_lock` marks a vmar and all that is below it, and pins the pages of the mappings. The
tree stays as it is.
-/

namespace Tomato

open RbTree Ranges Forest Transition Blocks Vmars

namespace Vmm

/-- The vmars in `S` are locked too, and no other field of a vmar changed. -/
structure Locked (k : Kernel) (s s' : Vmm) (f : ℕ → ℕ) (S : Set ℕ) : Prop where
  ok : s'.Ok k f
  pages : s'.PagesOk k
  vmars : s'.vmars = { s.vmars with locked := s'.vmars.locked }
  live : s'.run.live = s.run.live
  locked : ∀ y, s'.vmars.locked y = true ↔ s.vmars.locked y = true ∨ y ∈ S

/-- What is known of a call to `vmar_lock_internal` that goes down so many levels. -/
def LockSpec (k : Kernel) (fuel : ℕ) (lock : ℕ → Vmm → Option Vmm) : Prop :=
  ∀ x s f, s.Ok k f → s.PagesOk k → s.vmars.InTree k.roots x →
    (∀ s', lock x s = some s' → Locked k s s' f (s.below x)) ∧
    (Bounded s.vmars.parent fuel x → ∃ s', lock x s = some s')

variable {k : Kernel} {s s' s1 s2 : Vmm} {f : ℕ → ℕ} {x y z p n fuel m : ℕ} {rest : List ℕ}
  {lock : ℕ → Vmm → Option Vmm} {S T : Set ℕ}

namespace Locked

theorem refl (h : s.Ok k f) (hpg : s.PagesOk k) : Locked k s s f ∅ :=
  ⟨h, hpg, rfl, rfl, fun _ => by simp⟩

theorem trans (h : Locked k s s1 f S) (h' : Locked k s1 s2 f T) : Locked k s s2 f (S ∪ T) where
  ok := h'.ok
  pages := h'.pages
  vmars := by rw [h'.vmars, h.vmars]
  live := h'.live.trans h.live
  locked := fun y => by rw [h'.locked, h.locked, Set.mem_union, or_assoc]

theorem below_eq (h : Locked k s s1 f S) (x : ℕ) : s1.below x = s.below x := by
  rw [below, below, h.vmars]

end Locked

/-- A vmar in the tree is locked. -/
theorem Ok.setLocked (h : s.Ok k f) (hpg : s.PagesOk k) (hx : s.vmars.InTree k.roots x) :
    Locked k s (s.setVmars (s.vmars.setLocked x)) f {x} := by
  have hlock : ∀ y, y ≠ x → (s.vmars.setLocked x).locked y = s.vmars.locked y :=
    fun y hy => Function.update_of_ne hy _ _
  have hok : (s.setVmars (s.vmars.setLocked x)).Ok k f := by
    refine ⟨h.slabs, h.tree.congr rfl rfl rfl rfl rfl rfl rfl rfl rfl rfl rfl, h.kernelRegion,
      h.userRegion, h.static, fun y hy hl => ?_, h.refs, h.used, h.cut, h.kinds, h.held,
      h.unlocked, h.boot⟩
    have hb := h.dead y hy hl
    have hyx : y ≠ x := by
      rintro rfl
      exact h.not_inTree hy hl hx
    exact { hb with locked := (hlock y hyx).trans hb.locked }
  refine ⟨hok, ?_, rfl, rfl, fun y => ?_⟩
  · refine hpg.congr_vmars rfl rfl (fun y hp hk hl => ⟨hp, hk, ?_, rfl⟩) fun y hk hp => ⟨hk, hp, rfl⟩
    change (s.vmars.setLocked x).locked y = false at hl
    by_cases hyx : y = x
    · subst hyx
      simp [Vmars.setLocked] at hl
    · rwa [hlock y hyx] at hl
  · change (s.vmars.setLocked x).locked y = true ↔ _
    by_cases hyx : y = x
    · simp [hyx, Vmars.setLocked]
    · simp [hlock y hyx, hyx]

/-- The loop over the children of a region. -/
theorem lockChildren_spec (hspec : LockSpec k fuel lock) (h : s.Ok k f) (hpg : s.PagesOk k)
    {A : List ℕ} (hok : s.vmars.ChildrenOk p (A ++ rest))
    (hmem : ∀ z ∈ rest, s.vmars.parent z = some p) :
    (∀ s', lockChildren lock m rest.head? s = some s' → Locked k s s' f (s.belowAll rest)) ∧
    (rest.length ≤ m → (∀ c ∈ rest, Bounded s.vmars.parent fuel c) →
      ∃ s', lockChildren lock m rest.head? s = some s') := by
  induction rest generalizing s m A with
  | nil =>
    have hloop : lockChildren lock m none s = some s := by cases m <;> rfl
    refine ⟨fun s' he => ?_, fun _ _ => ⟨s, hloop⟩⟩
    obtain rfl := Option.some.inj (hloop.symm.trans he)
    have hempty : s.belowAll [] = ∅ := by simp [belowAll]
    exact hempty ▸ .refl h hpg
  | cons x rest ih =>
    have hx : s.vmars.parent x = some p := hmem x (by simp)
    have hnext : s.vmars.next x = rest.head? := hok.tree.links.next A x rest rfl
    obtain ⟨hpart, htot⟩ := hspec x s f h hpg (Or.inr (by simp [hx]))
    have hstep : ∀ s1, lock x s = some s1 → s1.vmars.next x = rest.head? ∧
        s1.vmars.ChildrenOk p ((A ++ [x]) ++ rest) ∧ ∀ z ∈ rest, s1.vmars.parent z = some p := by
      intro s1 e1
      obtain hv := (hpart s1 e1).vmars
      refine ⟨by rw [hv]; exact hnext, ?_, fun z hz => ?_⟩
      · rw [hv, List.append_assoc]
        exact hok.congr ⟨rfl, rfl⟩ (fun _ _ => ⟨rfl, rfl⟩) fun _ _ => ⟨rfl, rfl, rfl, rfl⟩
      · rw [hv]
        exact hmem z (List.mem_cons_of_mem x hz)
    cases m with
    | zero => exact ⟨fun s' he => by simp [lockChildren] at he, fun hlen => by simp at hlen⟩
    | succ m =>
      constructor
      · intro s' he
        rw [List.head?_cons, lockChildren, Option.bind_eq_bind] at he
        obtain ⟨s1, e1, he⟩ := Option.bind_eq_some_iff.mp he
        have h1 := hpart s1 e1
        obtain ⟨hn, hok1, hmem1⟩ := hstep s1 e1
        rw [hn] at he
        have h2 := (ih h1.ok h1.pages hok1 hmem1).1 s' he
        have hall : s.belowAll (x :: rest) = s.below x ∪ s1.belowAll rest := by
          ext y
          simp only [belowAll, h1.below_eq, List.mem_cons, exists_eq_or_imp, Set.mem_union,
            Set.mem_ofPred_eq]
        exact hall ▸ h1.trans h2
      · intro hlen hb
        obtain ⟨s1, e1⟩ := htot (hb x (by simp))
        have h1 := hpart s1 e1
        obtain ⟨hn, hok1, hmem1⟩ := hstep s1 e1
        obtain ⟨s', e'⟩ := (ih (m := m) h1.ok h1.pages hok1 hmem1).2 (by simpa using hlen)
          fun c hc => by
            rw [h1.vmars]
            exact hb c (by simp [hc])
        exact ⟨s', by rw [List.head?_cons, lockChildren, e1, Option.bind_eq_bind, Option.bind_some,
          hn, e']⟩

/-- `vmar_lock_internal` goes down as far as it has to. -/
theorem lockSpec (k : Kernel) (fuel : ℕ) : LockSpec k fuel (vmarLockInternal k fuel) := by
  induction fuel with
  | zero =>
    exact fun x s f _ _ _ => ⟨fun s' he => by simp [vmarLockInternal] at he, fun hb => hb.elim⟩
  | succ fuel ih =>
    intro x s f h hpg hx
    have h1 := h.setLocked hpg hx
    have hleafBelow : s.vmars.kind x ≠ .region → s.below x = {x} := fun hk =>
      below_of_leaf (h.tree.leaf_of_kind hk)
    have hkind : (s.setVmars (s.vmars.setLocked x)).vmars.kind x = s.vmars.kind x := rfl
    cases hk : s.vmars.kind x with
    | region =>
      obtain ⟨rest, hok, hmem⟩ := h.tree.children x
      have hleft : s.vmars.leftmost x = rest.head? := hok.tree.links.leftmost
      have hbelow : s.below x = {x} ∪ s.belowAll rest := by
        rw [Vmm.below_eq hmem, Set.union_comm]
      obtain ⟨hpart, htot⟩ := lockChildren_spec (m := fuel) (A := []) ih h1.ok
        h1.pages (hok.congr ⟨rfl, rfl⟩ (fun _ _ => ⟨rfl, rfl⟩) fun _ _ => ⟨rfl, rfl, rfl, rfl⟩)
        (show ∀ z ∈ rest, _ from fun z hz => (hmem z).mp hz)
      have heq : vmarLockInternal k (fuel + 1) x s = lockChildren (vmarLockInternal k fuel) fuel
          rest.head? (s.setVmars (s.vmars.setLocked x)) := by
        simp only [vmarLockInternal, hkind, hk]
        change lockChildren _ _ (s.vmars.leftmost x) _ = _
        rw [hleft]
      rw [heq]
      refine ⟨fun s' he => hbelow ▸ h1.trans (hpart s' he), fun hb => htot ?_ fun c hc => ?_⟩
      · obtain ⟨⟨xs, hlen, hxs⟩, -⟩ := hb
        exact (List.Nodup.length_le_of_subset hok.tree.nodup fun z hz =>
          hxs z ((hmem z).mp hz)).trans hlen
      · exact hb.2 c ((hmem c).mp hc)
    | mapping =>
      have hp : s.vmars.parent x ≠ none := by
        refine hx.resolve_left fun hr => ?_
        simp [(h.tree.root x hr).2] at hk
      obtain ⟨v, ev, hb, hc, -, -, -, hexec⟩ := h1.ok.locked_exec x
      obtain ⟨vs, e, hok', hpg'⟩ := h1.pages.makeGlobal h1.ok hp hk
        (show (s.vmars.setLocked x).locked x = true by simp [Vmars.setLocked])
      have he := (hexec _).trans e
      obtain ⟨s2, e2, hs2⟩ := Option.map_eq_some_iff.mp he
      have heq : vmarLockInternal k (fuel + 1) x s =
          some ((s.setVmars (s.vmars.setLocked x)).setVirt vs) := by
        simp only [vmarLockInternal, hkind, hk, ev, Option.bind_eq_bind, Option.bind_some, hb, hc, e2, hs2]
      rw [heq, hleafBelow (by simp [hk])]
      refine ⟨fun s' he => ?_, fun _ => ⟨_, rfl⟩⟩
      obtain rfl := Option.some.inj he
      exact ⟨hok', hpg', rfl, rfl, h1.locked⟩
    | special =>
      have heq : vmarLockInternal k (fuel + 1) x s = some (s.setVmars (s.vmars.setLocked x)) := by
        simp only [vmarLockInternal, hkind, hk]
      rw [heq, hleafBelow (by simp [hk])]
      refine ⟨fun s' he => ?_, fun _ => ⟨_, rfl⟩⟩
      obtain rfl := Option.some.inj he
      exact h1

/-- `vmar_lock`. -/
theorem Ok.vmarLock (h : s.Ok k f) (hpg : s.PagesOk k) (hx : s.Known k x) :
    (∀ fuel s', s.vmarLock k fuel x = some s' → Locked k s s' f (s.below x)) ∧
    (s.vmars.unmapped x = false → ∃ n, ∀ fuel, n ≤ fuel → ∃ s', s.vmarLock k fuel x = some s') := by
  constructor
  · intro fuel s' he
    by_cases hu : s.vmars.unmapped x = true
    · simp [Vmm.vmarLock, hu] at he
    · rw [Vmm.vmarLock, if_neg hu] at he
      exact (lockSpec k fuel x s f h hpg (h.inTree hx (by simpa using hu))).1 s' he
  · intro hu
    obtain ⟨n, hn⟩ := h.exists_bounded x
    refine ⟨n, fun fuel hfuel => ?_⟩
    rw [Vmm.vmarLock, if_neg (by simp [hu])]
    exact (lockSpec k fuel x s f h hpg (h.inTree hx hu)).2 (hn.mono hfuel)

end Vmm

end Tomato
