import Tomato.Mem.Vmar.UnmapRun

/-!
# The life of a vmar

`vmar_allocate` and `vmar_map` make a vmar, and `vmar_free` is called for it once: with its last
reference, after it has left the tree.
-/

namespace Tomato

open RbTree Ranges Forest Transition Vmars

namespace Vmm

section

variable (k : Kernel)

/-- The calls of `vmar_free` in `OBJECT_PUT`: the state it is called in, and the vmar. -/
def putFrees (s : Vmm) (vmar : ℕ) : List (Vmm × ℕ) :=
  if s.vmars.refCount vmar = 1 then [(s.setVmars (s.vmars.dropRef vmar), vmar)] else []

/-- The calls of `vmar_free` in the loop of `vmar_unmap_internal` over the children. -/
def childFrees (unmap : ℕ → Vmm → Option Vmm) (frees : ℕ → Vmm → List (Vmm × ℕ)) :
    ℕ → Option ℕ → Vmm → List (Vmm × ℕ)
  | n + 1, some child, s =>
    frees child s ++ (unmap child s).elim [] fun s1 =>
      s1.putFrees child ++
        (s1.objectPut k child).elim [] (childFrees unmap frees n (s.vmars.next child))
  | 0, some _, _ => []
  | _, none, _ => []

def unmapFrees : ℕ → ℕ → Vmm → List (Vmm × ℕ)
  | 0, _, _ => []
  | fuel + 1, vmar, s =>
    if s.vmars.kind vmar = .region then
      childFrees k (vmarUnmapInternal k fuel) (unmapFrees fuel) fuel (s.vmars.leftmost vmar) s
    else []

def vmarUnmapFrees (fuel vmar : ℕ) (s : Vmm) : List (Vmm × ℕ) :=
  if s.vmars.unmapped vmar then []
  else unmapFrees k fuel vmar s ++
    (vmarUnmapInternal k fuel vmar s).elim [] fun s => s.putFrees vmar

/-- The calls in the deferred part of the page fault handler. -/
def leaveFaultFrees (s : Vmm) (vmar : ℕ) : FaultResult → List (Vmm × ℕ)
  | .killed => []
  | .returned _ => (s.setVmars (s.vmars.unlockPageTable vmar)).putFrees vmar

def pageFaultFrees (s : Vmm) (fuel addr errorCode : ℕ) : List (Vmm × ℕ) :=
  if errorCode &&& (IA32_PF_EC_USER ||| IA32_PF_EC_WRITE ||| IA32_PF_EC_PROT |||
      IA32_PF_EC_INSTR) ≠ errorCode then []
  else (s.vmars.vmarFindMapping fuel (s.faultRoot k addr errorCode) addr).elim [] fun
    | (none, _) => []
    | (some vmar, v) =>
      if errorCode &&& IA32_PF_EC_PROT ≠ 0 ∨ errorCode &&& IA32_PF_EC_INSTR ≠ 0 then
        (s.setVmars v).leaveFaultFrees vmar (checkKillFailed errorCode)
      else ((s.setVmars v).execVirt k (.populate addr 1 (v.locked vmar))).elim [] fun s =>
        s.leaveFaultFrees vmar (.returned (.ok ()))

/-- When `vmar_free` is called for a vmar, it was unmapped, and nobody has a reference to it. -/
structure Freed (s : Vmm) (x : ℕ) : Prop where
  live : x ∈ s.run.live
  unmapped : s.vmars.unmapped x = true
  parent : s.vmars.parent x = none
  refCount : s.vmars.refCount x = 0

/-- The vmars that were freed are those that are missing. -/
structure Frees (s s' : Vmm) (l : List (Vmm × ℕ)) : Prop where
  perm : (l.map Prod.snd ++ s'.run.live).Perm s.run.live
  freed : ∀ e ∈ l, e.1.Freed e.2

end

variable {k : Kernel} {s s' s1 s2 : Vmm} {f : ℕ → ℕ} {x p fuel m : ℕ} {rest : List ℕ}
  {unmap : ℕ → Vmm → Option Vmm} {frees : ℕ → Vmm → List (Vmm × ℕ)} {l l' : List (Vmm × ℕ)}

namespace Frees

theorem nil (h : s'.run.live = s.run.live) : Frees s s' [] :=
  ⟨by rw [h]; exact .refl _, by simp⟩

theorem append (h : Frees s s1 l) (h' : Frees s1 s2 l') : Frees s s2 (l ++ l') where
  perm := by
    rw [List.map_append, List.append_assoc]
    exact (h'.perm.append_left _).trans h.perm
  freed := fun e he => (List.mem_append.mp he).elim (h.freed e) (h'.freed e)

/-- The last reference is the one that frees. -/
theorem put (h : s.Ok k f) (hf : 0 < f x) (he : s.objectPut k x = some s') :
    Frees s s' (s.putFrees x) := by
  have hx := h.held x (by omega)
  have hrefs := h.refs x hx
  obtain ⟨s'', e, -, -, hcase⟩ := h.objectPut hf
  obtain rfl := Option.some.inj (e.symm.trans he)
  rcases hcase with ⟨h1, hp, -, hlive⟩ | ⟨h1, -, hrun⟩
  · have hone : s.vmars.refCount x = 1 := by
      rw [hrefs, h1, Vmars.linked, if_pos hp]
    rw [putFrees, if_pos hone]
    refine ⟨?_, fun e he => ?_⟩
    · rw [hlive]
      exact (List.perm_cons_erase hx).symm
    · obtain rfl := List.mem_singleton.mp he
      exact ⟨hx, h.cut x hx hp, hp, by simp [setVmars, Vmars.dropRef, hone]⟩
  · have hne : s.vmars.refCount x ≠ 1 := by
      rw [hrefs, Vmars.linked]
      split
      · rename_i hp
        have := h1.resolve_left (by simp [hp])
        omega
      · omega
    rw [putFrees, if_neg hne]
    exact .nil (by rw [hrun])

end Frees

/-- The loop frees the children that nobody else has. -/
theorem childFrees_spec (hspec : UnmapSpec k fuel unmap)
    (hfrees : ∀ x s f s', s.Ok k f → s.PagesOk k → unmap x s = some s' →
      Frees s s' (frees x s))
    (h : s.Ok k f) (hpg : s.PagesOk k) (hok : s.vmars.ChildrenOk p rest)
    (hmem : ∀ z, z ∈ rest ↔ s.vmars.parent z = some p)
    (he : unmapChildren k unmap m rest.head? s = some s') :
    Frees s s' (childFrees k unmap frees m rest.head? s) := by
  induction rest generalizing s m with
  | nil =>
    have hnil : childFrees k unmap frees m none s = [] := by cases m <;> rfl
    have hloop : unmapChildren k unmap m none s = some s := by cases m <;> rfl
    obtain rfl := Option.some.inj (hloop.symm.trans he)
    rw [List.head?_nil, hnil]
    exact .nil rfl
  | cons x rest ih =>
    have hx : s.vmars.parent x = some p := (hmem x).mp (by simp)
    have hnext : s.vmars.next x = rest.head? := hok.tree.links.next [] x rest rfl
    cases m with
    | zero => simp [unmapChildren] at he
    | succ m =>
      simp only [List.head?_cons, unmapChildren, hnext, Option.bind_eq_bind] at he
      split at he
      · simp at he
      split at he
      · simp at he
      obtain ⟨s1, e1, he⟩ := Option.bind_eq_some_iff.mp he
      obtain ⟨s2, e2, hok2, hpg2, hd2, -⟩ := unmapChild_spec hspec h hpg hx e1
      rw [e2, Option.bind_some] at he
      obtain ⟨hrest, hmem2⟩ := h.siblings hd2 hok2 hx hok hmem
      obtain ⟨q, hun⟩ := (hspec x s f h hpg).1 s1 e1
      have hloop : childFrees k unmap frees (m + 1) (some x) s =
          frees x s ++ (s1.putFrees x ++ childFrees k unmap frees m rest.head? s2) := by
        simp only [childFrees, e1, Option.elim_some, e2, hnext]
      rw [List.head?_cons, hloop]
      exact (hfrees x s f s1 h hpg e1).append
        ((Frees.put hun.ok (by simp) e2).append (ih hok2 hpg2 hrest hmem2 he))

/-- `vmar_unmap_internal` frees the vmars below the first one that nobody else has. -/
theorem unmapFrees_spec (fuel x : ℕ) (s : Vmm) (f : ℕ → ℕ) (s' : Vmm) (h : s.Ok k f)
    (hpg : s.PagesOk k) (he : vmarUnmapInternal k fuel x s = some s') :
    Frees s s' (unmapFrees k fuel x s) := by
  induction fuel generalizing x s f s' with
  | zero => simp [vmarUnmapInternal] at he
  | succ fuel ih =>
    obtain ⟨p, hun⟩ := (unmapSpec k (fuel + 1) x s f h hpg).1 s' he
    obtain ⟨rest, hok, hmem⟩ := h.tree.children x
    obtain ⟨hl, hs⟩ := hun.clear x (.refl x)
    have hkp := (h.tree.parent x p hun.parent).1
    have hunm : s.vmars.unmapped x = false := by
      by_contra hne
      exact h.tree.unmapped x (by simpa using hne) (Or.inr (by simp [hun.parent]))
    rw [unmapFrees]
    cases hk : s.vmars.kind x with
    | region =>
      simp only [vmarUnmapInternal, hunm, hl, hun.parent, hkp, hk, Option.bind_eq_bind,
        Bool.false_eq_true, if_false, Option.bind_some, ne_eq, not_true_eq_false] at he
      obtain ⟨s1, e1, he⟩ := Option.bind_eq_some_iff.mp he
      obtain ⟨v, -, rfl⟩ := Option.map_eq_some_iff.mp he
      rw [if_pos rfl]
      rw [show s.vmars.leftmost x = rest.head? from hok.tree.links.leftmost] at e1 ⊢
      have hrest := childFrees_spec (unmapSpec k fuel) ih h hpg hok hmem e1
      exact ⟨hrest.perm, hrest.freed⟩
    | mapping =>
      simp only [vmarUnmapInternal, hunm, hl, hun.parent, hkp, hk, Option.bind_eq_bind,
        Bool.false_eq_true, if_false, Option.bind_some, ne_eq, not_true_eq_false] at he
      obtain ⟨v, -, he⟩ := Option.bind_eq_some_iff.mp he
      obtain ⟨s1, e1, he⟩ := Option.bind_eq_some_iff.mp he
      obtain ⟨vs, -, rfl⟩ := Option.map_eq_some_iff.mp e1
      obtain ⟨w, -, rfl⟩ := Option.map_eq_some_iff.mp he
      rw [if_neg (by simp)]
      exact .nil rfl
    | special => exact absurd hk hs

theorem vmarUnmapFrees_spec (h : s.Ok k f) (hpg : s.PagesOk k)
    (he : s.vmarUnmap k fuel x = some s') : Frees s s' (vmarUnmapFrees k fuel x s) := by
  rw [vmarUnmap] at he
  rw [vmarUnmapFrees]
  by_cases hu : s.vmars.unmapped x = true
  · rw [if_pos hu] at he ⊢
    obtain rfl := Option.some.inj he
    exact .nil rfl
  · rw [if_neg hu] at he ⊢
    rw [Option.bind_eq_bind] at he
    obtain ⟨s1, e1, he⟩ := Option.bind_eq_some_iff.mp he
    obtain ⟨p, hun⟩ := (unmapSpec k fuel x s f h hpg).1 s1 e1
    rw [e1, Option.elim_some]
    exact (unmapFrees_spec fuel x s f s1 h hpg e1).append (Frees.put hun.ok (by simp) he)

/-- A page fault gives back the reference that it took. -/
theorem pageFaultFrees_eq_nil (h : s.Ok k f) (address errorCode : ℕ) :
    s.pageFaultFrees k fuel address errorCode = [] := by
  rw [pageFaultFrees]
  split
  · rfl
  cases e : s.vmars.vmarFindMapping fuel (s.faultRoot k address errorCode) address with
  | none => rfl
  | some res =>
    obtain ⟨o, v⟩ := res
    rcases h.vmarFindMapping_eq (h.kind_faultRoot address errorCode) e with
      ⟨rfl, rfl⟩ | ⟨m, rfl, rfl, hm⟩
    · rfl
    · have hpos := h.used m hm
      have hleave : ∀ vs res, ((s.setVmars (s.vmars.found m)).setVirt vs).leaveFaultFrees m res =
          [] := fun vs res => by
        cases res with
        | killed => rfl
        | returned err =>
          simp [leaveFaultFrees, putFrees, setVmars, setVirt, Vmars.found, Vmars.objectGet,
            unlockPageTable, Nat.pos_iff_ne_zero.mp hpos]
      rw [Option.elim_some]
      dsimp only
      split
      · exact hleave s.virt _
      · cases e' : (s.setVmars (s.vmars.found m)).execVirt k
          (.populate address 1 ((s.vmars.found m).locked m)) with
        | none => rfl
        | some s1 =>
          obtain ⟨vs, -, rfl⟩ := Option.map_eq_some_iff.mp e'
          exact hleave vs (.returned (.ok ()))

end Vmm

open Vmm

namespace VmmRun

/-- The vmar that a call makes. -/
def made (k : Kernel) (r : VmmRun) : VmmCall → List ℕ
  | .allocate parent offset pageCount =>
      (r.vmm.vmarAllocate k parent offset pageCount).elim [] fun res => res.1.toOption.toList
  | .map parent offset pageCount =>
      (r.vmm.vmarMap k parent offset pageCount).elim [] fun res => res.1.toOption.toList
  | _ => []

/-- The calls of `vmar_free` in a call. -/
def frees (k : Kernel) (r : VmmRun) (fuel : ℕ) : VmmCall → List (Vmm × ℕ)
  | .unmap vmar => vmarUnmapFrees k fuel vmar r.vmm
  | .put vmar => r.vmm.putFrees vmar
  | .pageFault address errorCode => r.vmm.pageFaultFrees k fuel address errorCode
  | _ => []

/-- The calls on the vmars that their holders make: only a vmar that the caller has a handle to
is unmapped, and nothing that is locked or special with it. -/
def Holds (r : VmmRun) : VmmCall → Prop
  | .allocate .. | .map .. | .findMapping .. | .get _ | .put _ => True
  | .unmap vmar => 0 < r.handles vmar ∧ (r.vmm.vmars.unmapped vmar = true ∨ r.vmm.Clear vmar)
  | _ => False

variable {k : Kernel} {r r' : VmmRun} {fuel : ℕ} {c : VmmCall}

/-- The objects after a call: the new one is there, and those that were freed are not. -/
theorem frees_exec (h : r.Good k) (hv : r.Valid k c) (he : r.exec k fuel c = some r') :
    ((r.frees k fuel c).map Prod.snd ++ r'.vmm.run.live).Perm (r.made k c ++ r.vmm.run.live) ∧
      ∀ e ∈ r.frees k fuel c, e.1.Freed e.2 := by
  obtain ⟨hok, hpg⟩ := id h
  have hsame : r'.vmm.run.live = r.vmm.run.live → r.made k c = [] → r.frees k fuel c = [] →
      ((r.frees k fuel c).map Prod.snd ++ r'.vmm.run.live).Perm (r.made k c ++ r.vmm.run.live) ∧
      ∀ e ∈ r.frees k fuel c, e.1.Freed e.2 := fun h1 h2 h3 => by
    rw [h1, h2, h3]
    exact ⟨.refl _, by simp⟩
  have hfrees : ∀ {l}, r.frees k fuel c = l → r.made k c = [] → r.vmm.Frees r'.vmm l →
      ((r.frees k fuel c).map Prod.snd ++ r'.vmm.run.live).Perm (r.made k c ++ r.vmm.run.live) ∧
      ∀ e ∈ r.frees k fuel c, e.1.Freed e.2 := fun h1 h2 h3 => by
    rw [h1, h2]
    exact ⟨h3.perm, h3.freed⟩
  cases c with
  | link parent child =>
    obtain ⟨v, -, rfl⟩ := Option.map_eq_some_iff.mp he
    exact hsame rfl rfl rfl
  | allocateStatic parent child offset n =>
    obtain ⟨⟨res, v⟩, -, rfl⟩ := Option.map_eq_some_iff.mp he
    exact hsame rfl rfl rfl
  | allocate parent offset n =>
    obtain ⟨⟨res, s⟩, e, rfl⟩ := Option.map_eq_some_iff.mp he
    obtain ⟨res', s', e', -, -, -, hcase⟩ := hpg.vmarAllocate hok hv offset n
    obtain ⟨rfl, rfl⟩ := Prod.mk.inj (Option.some.inj (e'.symm.trans e))
    rcases hcase with ⟨e1, rfl, hr⟩ | ⟨x, rfl, ha⟩
    · exact hsame hr.live (by rw [made, e]; rfl) rfl
    · refine ⟨?_, by simp [frees]⟩
      rw [made, e, show s'.run.live = x :: r.vmm.run.live from ha.live]
      exact .refl _
  | map parent offset n =>
    obtain ⟨⟨res, s⟩, e, rfl⟩ := Option.map_eq_some_iff.mp he
    obtain ⟨res', s', e', -, -, hcase⟩ := hpg.vmarMap hok hv offset n
    obtain ⟨rfl, rfl⟩ := Prod.mk.inj (Option.some.inj (e'.symm.trans e))
    rcases hcase with ⟨e1, rfl, hr, -⟩ | ⟨x, rfl, ha, -⟩
    · exact hsame hr.live (by rw [made, e]; rfl) rfl
    · refine ⟨?_, by simp [frees]⟩
      rw [made, e, show s'.run.live = x :: r.vmm.run.live from ha.live]
      exact .refl _
  | populate x =>
    obtain ⟨⟨res, s⟩, e, rfl⟩ := Option.map_eq_some_iff.mp he
    obtain ⟨res', s', e', -, -, hcase⟩ := hok.vmarPopulate hpg hv
    obtain ⟨rfl, rfl⟩ := Prod.mk.inj (Option.some.inj (e'.symm.trans e))
    rcases hcase with ⟨e, -, rfl⟩ | ⟨vs, -, rfl, -⟩
    · exact hsame rfl rfl rfl
    · exact hsame rfl rfl rfl
  | lock x =>
    obtain ⟨s, e, rfl⟩ := Option.map_eq_some_iff.mp he
    have hl := (hok.vmarLock hpg hv).1 fuel s e
    exact hsame hl.live rfl rfl
  | unmap x =>
    obtain ⟨s, e, rfl⟩ := Option.map_eq_some_iff.mp he
    exact hfrees rfl rfl (vmarUnmapFrees_spec hok hpg e)
  | findMapping root address =>
    obtain ⟨⟨o, v⟩, e, rfl⟩ := Option.map_eq_some_iff.mp he
    rcases hok.vmarFindMapping_eq hv e with ⟨rfl, rfl⟩ | ⟨m, rfl, rfl, hlive⟩
    · exact hsame rfl rfl rfl
    · exact hsame rfl rfl rfl
  | get x =>
    obtain rfl := Option.some.inj he
    exact hsame rfl rfl rfl
  | put x =>
    obtain ⟨s, e, rfl⟩ := Option.map_eq_some_iff.mp he
    exact hfrees rfl rfl (Frees.put hok hv e)
  | pageFault address errorCode =>
    have hnil : r.vmm.pageFaultFrees k fuel address errorCode = [] :=
      pageFaultFrees_eq_nil hok address errorCode
    simp only [exec] at he
    split at he
    · rename_i err s e
      obtain rfl := Option.some.inj he
      obtain ⟨n, res, s', hrun, hcase⟩ := hok.virtPageFaultHandler hpg address errorCode
      have heq := (Vmm.virtPageFaultHandler_mono e (Nat.le_max_left fuel (n + 1))).symm.trans
        (hrun _ (lt_of_lt_of_le (Nat.lt_succ_self n) (Nat.le_max_right fuel (n + 1))))
      obtain ⟨rfl, rfl⟩ := Prod.mk.inj (Option.some.inj heq)
      rcases hcase with ⟨m, vs, -, rfl, -⟩ | ⟨e, -, rfl⟩ | ⟨hc, -⟩
      · exact hsame rfl rfl hnil
      · exact hsame rfl rfl hnil
      · simp at hc
    · simp at he
  | newSlab =>
    obtain ⟨vs, e, rfl⟩ := Option.map_eq_some_iff.mp he
    exact hsame rfl rfl rfl
  | client c =>
    obtain ⟨s, e, rfl⟩ := Option.map_eq_some_iff.mp he
    obtain ⟨vs, -, rfl⟩ := Option.map_eq_some_iff.mp e
    exact hsame rfl rfl rfl

/-- No assertion fails, and no call waits for ever. -/
theorem exec_total (h : r.Good k) (hv : r.Valid k c) (hc : r.Holds c) :
    ∃ n, ∀ fuel, n ≤ fuel → ∃ r', r.exec k fuel c = some r' := by
  obtain ⟨hok, hpg⟩ := id h
  have hmap : ∀ {α : Type} {o : Option α} {g : α → VmmRun}, (∃ a, o = some a) →
      ∃ r', o.map g = some r' := by
    rintro α _ g ⟨a, rfl⟩
    exact ⟨g a, rfl⟩
  cases c with
  | allocate parent offset n =>
    obtain ⟨res, s, e, -⟩ := hpg.vmarAllocate hok hv offset n
    exact ⟨0, fun _ _ => hmap ⟨_, e⟩⟩
  | map parent offset n =>
    obtain ⟨res, s, e, -⟩ := hpg.vmarMap hok hv offset n
    exact ⟨0, fun _ _ => hmap ⟨_, e⟩⟩
  | unmap x =>
    obtain ⟨hx, hc⟩ := hc
    by_cases hu : r.vmm.vmars.unmapped x = true
    · exact ⟨0, fun _ _ => hmap ⟨r.vmm, by rw [Vmm.vmarUnmap, if_pos hu]⟩⟩
    · have hin := hok.inTree hv (by simpa using hu)
      have hlive := hok.held x (by omega)
      have hp := hin.resolve_left (Ok.notMem_roots (hok.live_subset hlive))
      obtain ⟨n, hn⟩ := (hok.vmarUnmap hpg).2 hp (hc.resolve_left hu)
      exact ⟨n, fun fuel hfuel => hmap (hn fuel hfuel)⟩
  | findMapping root address =>
    obtain ⟨n, ⟨m, hfind, -⟩ | ⟨hfind, -⟩⟩ := hok.vmarFindMapping hv address
    · exact ⟨n + 1, fun fuel hfuel => hmap ⟨_, hfind fuel hfuel⟩⟩
    · exact ⟨n + 1, fun fuel hfuel => hmap ⟨_, hfind fuel hfuel⟩⟩
  | get x => exact ⟨0, fun _ _ => ⟨_, rfl⟩⟩
  | put x =>
    obtain ⟨s, e, -⟩ := hok.objectPut hv
    exact ⟨0, fun _ _ => hmap ⟨s, e⟩⟩
  | _ => exact hc.elim

end VmmRun

/-- A run with its past: the vmars that were made, and the calls of `vmar_free`. -/
structure VmmHistory where
  run : VmmRun
  made : List ℕ
  frees : List (Vmm × ℕ)

namespace VmmHistory

variable (k : Kernel)

def Initial (h : VmmHistory) : Prop := VmmRun.Initial k h.run ∧ h.made = [] ∧ h.frees = []

def Step (h h' : VmmHistory) : Prop :=
  ∃ fuel c, h.run.Valid k c ∧ h.run.exec k fuel c = some h'.run ∧
    h'.made = h.run.made k c ++ h.made ∧ h'.frees = h.run.frees k fuel c ++ h.frees

/-- What holds of the vmars in the heap. A vmar is freed as often as it was made, but for once
while it is handed out. -/
structure Lifetime (h : VmmHistory) : Prop where
  counted : ∀ x ∈ h.run.vmm.run.live,
    h.run.vmm.vmars.refCount x = h.run.vmm.vmars.linked x + h.run.handles x
  live_iff : ∀ x ∈ k.d.range,
    x ∈ h.run.vmm.run.live ↔ 0 < h.run.vmm.vmars.linked x + h.run.handles x
  handle : ∀ x, 0 < h.run.handles x → x ∈ h.run.vmm.run.live
  linked : ∀ x, h.run.vmm.vmars.parent x ≠ none → h.run.vmm.vmars.kind x ≠ .special →
    x ∈ h.run.vmm.run.live
  once : ∀ x, h.made.count x =
    (h.frees.map Prod.snd).count x + if x ∈ h.run.vmm.run.live then 1 else 0
  freed : ∀ e ∈ h.frees, e.1.Freed e.2
  completes : ∀ c, h.run.Valid k c → h.run.Holds c →
    ∃ n, ∀ fuel, n ≤ fuel → ∃ r, h.run.exec k fuel c = some r

variable {k} {h : VmmHistory}

theorem reachable_run (hr : Reachable (Initial k) (Step k) h) :
    Reachable (VmmRun.Initial k) (VmmRun.Step k) h.run := by
  induction hr with
  | start h0 => exact .start h0.1
  | next _ hst ih =>
    obtain ⟨fuel, c, hv, he, -⟩ := hst
    exact ih.next ⟨fuel, c, hv, he⟩

/-- The vmars that were made were freed, or are handed out. -/
theorem perm_of_reachable (hr : Reachable (Initial k) (Step k) h) :
    (h.frees.map Prod.snd ++ h.run.vmm.run.live).Perm h.made ∧ ∀ e ∈ h.frees, e.1.Freed e.2 := by
  induction hr with
  | start h0 =>
    obtain ⟨h0, h1, h2⟩ := h0
    rw [h1, h2, h0.live]
    exact ⟨.refl _, by simp⟩
  | @next h h' hr hst ih =>
    obtain ⟨fuel, c, hv, he, hmade, hfrees⟩ := hst
    obtain ⟨hp, hf⟩ := VmmRun.frees_exec (VmmRun.good_of_reachable (reachable_run hr)) hv he
    rw [hmade, hfrees, List.map_append]
    refine ⟨?_, fun e he => (List.mem_append.mp he).elim (hf e) (ih.2 e)⟩
    refine ((List.perm_append_comm.append_right _).trans ?_).trans (ih.1.append_left _)
    rw [List.append_assoc]
    refine (hp.append_left _).trans ?_
    rw [← List.append_assoc, ← List.append_assoc]
    exact List.perm_append_comm.append_right _

end VmmHistory

variable {k : Kernel} {h : VmmHistory}

/-- The references, the handles and the objects fit in every run. -/
theorem lifetime_of_reachable (hr : Reachable (VmmHistory.Initial k) (VmmHistory.Step k) h) :
    h.Lifetime k := by
  have hgood := VmmRun.good_of_reachable (VmmHistory.reachable_run hr)
  obtain ⟨hok, -⟩ := id hgood
  obtain ⟨hperm, hfreed⟩ := VmmHistory.perm_of_reachable hr
  refine ⟨hok.refs, fun x hx => ⟨fun hl => hok.refs x hl ▸ hok.used x hl, fun hpos => ?_⟩,
    fun x hx => hok.held x (by omega), fun x => hok.mem_live, fun x => ?_, hfreed,
    fun c hv hc => VmmRun.exec_total hgood hv hc⟩
  · by_contra hl
    have hb := hok.dead x hx hl
    rw [Vmars.linked, if_pos hb.parent, hgood.handles_eq_zero hl] at hpos
    omega
  · rw [← hperm.count_eq, List.count_append, hok.live_nodup.count]

theorem lifetime_smallKernel :
    ∃ h, VmmHistory.Initial smallKernel h ∧ h.Lifetime smallKernel := by
  obtain ⟨r, h⟩ := exists_initial
  have h0 : VmmHistory.Initial smallKernel ⟨r, [], []⟩ := ⟨h, rfl, rfl⟩
  exact ⟨_, h0, lifetime_of_reachable (.start h0)⟩

end Tomato
