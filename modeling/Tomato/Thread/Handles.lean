import Tomato.Thread.CreateExact

/-!
# The handles for the stacks

A thread that is created gets the handle for the region of its stack, and `thread_free` does not
put it: the region leaves the tree, and is never freed.
-/

namespace Tomato

open Blocks Transition Vmars

open VirtState (StillHeld)

namespace ThreadRun

variable {k : ThreadKernel} {t t' : ThreadRun} {f : ℕ → ℕ} {x thread fuel : ℕ}

theorem Sound.good (h : t'.Sound k f) (hf : t'.own + t'.stackHandles = f) : t'.Good k := by
  subst hf
  exact h

theorem good_of_initial (h : t.Initial k) : t.Good k ∧ t.stackHandles = 0 := by
  obtain ⟨hvmm, hcr, hlive, hring, -, hfreed⟩ := h
  obtain ⟨hok, hpg⟩ := VmmRun.good_of_initial hvmm
  have hzero : t.stackHandles = 0 := by
    funext x
    simp [stackHandles, threadHandles, hlive, hfreed]
  have hs : t.Sound k t.own :=
    ⟨hok, hpg, SlabRun.good_of_created_nil hok.good hok.handedOver hcr hlive hring⟩
  exact ⟨hs.good (by rw [hzero, add_zero]), hzero⟩

/-- A call on vmars, where the threads have their handles as before. -/
theorem Good.vmm {c : VmmCall} {r : VmmRun} (h : t.Good k)
    (hv : t.Valid k (.vmm c)) (he : (VmmRun.mk t.vmm t.own).exec k.toKernel fuel c = some r) :
    Good k { t with vmm := r.vmm, own := r.handles } := by
  obtain ⟨hv, hslabs⟩ := hv
  obtain ⟨hv', he'⟩ := VmmRun.exec_handles t.stackHandles hv he
  have hg : (VmmRun.mk t.vmm t.handles).Good k.toKernel := ⟨Sound.vmm h, h.pages⟩
  obtain ⟨hok, hpg⟩ := VmmRun.good_exec hg hv' he'
  refine ⟨hok, hpg, h.slabs.setVirt hok.good hok.handedOver fun slab hs => ?_⟩
  exact VmmRun.stillHeld_of_exec (r := ⟨t.vmm, t.own⟩) (h.slabs.1.held slab hs)
    (hslabs slab hs) he

/-- `thread_free` does not change the number of the handles. -/
theorem Good.threadFree (h : t.Good k) (hx : thread ∈ t.live)
    (he : t.threadFree k fuel thread = some t') :
    t'.Good k ∧ t'.stackHandles = t.stackHandles := by
  obtain ⟨s, e1, he⟩ := Option.bind_eq_some_iff.mp he
  have hs : s.Ok k.toKernel t.handles ∧ s.PagesOk k.toKernel := by
    rcases (Sound.vmm h).vmarUnmap h.pages |>.1 fuel s e1 with ⟨-, rfl⟩ | ⟨p, -, -, hok, hpg, -⟩
    · exact ⟨Sound.vmm h, h.pages⟩
    · exact ⟨hok, hpg⟩
  have h1 := Sound.setVmm h hs.1 hs.2 (Vmm.vmarUnmap_stillHeld e1)
  obtain ⟨r, e2, h2, hl, -⟩ := Sound.freeThread (t := { t with
    vmm := s, freed := t.fields.kernelStack thread :: t.freed }) ⟨h1.vmm, h1.pages, h1.slabs⟩ hx
  obtain rfl := Option.some.inj (e2.symm.trans he)
  have hstack : ∀ y, r.live.countP (fun z => (t.fields.wipe thread).kernelStack z = y) +
      (t.fields.kernelStack thread :: t.freed).count y = t.stackHandles y := by
    intro y
    rw [hl, stackHandles, ← threadHandles_wipe (Sound.live_nodup h) hx y, List.count_cons,
      List.count_singleton]
    simp only
    omega
  exact ⟨(h2.setFields _).good (funext fun y => congrArg (t.own y + ·) (hstack y)),
    funext hstack⟩

theorem Good.threadPut (h : t.Good k) (hx : thread ∈ t.live)
    (he : t.threadPut k fuel thread = some t') :
    t'.Good k ∧ t'.stackHandles = t.stackHandles := by
  have hs : t.Sound k t.handles := h
  rw [ThreadRun.threadPut] at he
  split at he
  · simp at he
  · split at he
    · exact Good.threadFree (t := { t with fields := t.fields.setRefCount thread _ })
        ⟨hs.vmm, h.pages, h.slabs⟩ hx he
    · obtain rfl := Option.some.inj he
      exact ⟨⟨hs.vmm, h.pages, h.slabs⟩, rfl⟩

theorem Uncreated.stackHandles (h : Uncreated k t t') (y : ℕ) :
    t'.stackHandles y = t.stackHandles y := by
  obtain ⟨thread, hx, hf⟩ := h.fields
  rw [ThreadRun.stackHandles, ThreadRun.stackHandles, threadHandles, h.live, h.freed]
  congr 1
  refine List.countP_congr fun z hz => ?_
  have hne : z ≠ thread := fun hc => hx (hc ▸ hz)
  simp [hf, ThreadFields.wipe, Function.update_of_ne hne]

/-- A new thread has the handle for its stack. -/
theorem Created.stackHandles {entry arg region stack : ℕ}
    (h : Created k t t' f entry arg thread region stack) (y : ℕ) :
    t'.stackHandles y = t.stackHandles y + if y = region then 1 else 0 := by
  have hold : t.live.countP (fun z => t'.fields.kernelStack z = y) = t.threadHandles y := by
    refine List.countP_congr fun z hz => ?_
    rw [(h.others z fun hc => h.live.1 (hc ▸ hz)).2.2.1]
  rw [ThreadRun.stackHandles, ThreadRun.stackHandles, threadHandles, h.live.2, h.freed,
    List.countP_cons, hold, h.kernelStack]
  by_cases hy : region = y <;> simp [hy, eq_comm, Nat.add_right_comm]

/-- What holds in every reachable state. No stack has two handles. -/
def Invariant (k : ThreadKernel) (t : ThreadRun) : Prop := t.Good k ∧ ∀ x, t.stackHandles x ≤ 1

theorem Invariant.exec {c : Call} {m : ℕ} (h : t.Invariant k) (hv : t.Valid k c)
    (he : ∀ fuel, m ≤ fuel → t.exec k fuel c = some t') : t'.Invariant k := by
  obtain ⟨h, hone⟩ := h
  have hs : t.Sound k t.handles := h
  cases c with
  | vmm c =>
    obtain ⟨r, e, rfl⟩ := Option.map_eq_some_iff.mp (he m le_rfl)
    exact ⟨h.vmm hv e, hone⟩
  | create out entry arg =>
    by_cases hc : t.CanAlloc k
    · obtain ⟨n, hn⟩ := Sound.threadCreate h hc out entry arg
      obtain ⟨res, out', t1, e, hcase⟩ := hn (max m n) (le_max_right _ _)
      have he := he (max m n) (le_max_left _ _)
      rw [ThreadRun.exec, e] at he
      obtain rfl : t1 = t' := Option.some.inj he
      rcases hcase with ⟨-, -, -, hs, hun⟩ | ⟨-, region, stack, hs, hnew, hcr⟩
      · have hsame := funext hun.stackHandles
        exact ⟨hs.good (by rw [hun.own, hsame]; rfl), hsame ▸ hone⟩
      · have hzero : t.handles region = 0 := by
          by_contra hne
          exact hnew ((Sound.vmm h).held region hne)
        have hstack : t.stackHandles region = 0 := (Nat.add_eq_zero_iff.mp hzero).2
        refine ⟨hs.good (funext fun y => ?_), fun y => ?_⟩
        · rw [Pi.add_apply, hcr.stackHandles, hcr.own]
          by_cases hy : y = region
          · rw [hy, if_pos rfl, Function.update_self]
            exact congrArg (· + 1) hzero
          · rw [if_neg hy, Function.update_of_ne hy]
            rfl
        · have := hone y
          rw [hcr.stackHandles]
          split
          · next hy => rw [hy, hstack]
          · omega
    · have he := he m le_rfl
      rw [ThreadRun.exec, Sound.threadCreate_eq_none h hc] at he
      simp at he
  | get thread => exact Option.some.inj (he m le_rfl) ▸ ⟨⟨hs.vmm, h.pages, h.slabs⟩, hone⟩
  | put thread =>
    obtain ⟨h', hsame⟩ := h.threadPut hv (he m le_rfl)
    exact ⟨h', hsame ▸ hone⟩
  | start thread =>
    have he := he m le_rfl
    rw [ThreadRun.exec, threadStart] at he
    split at he
    · exact Option.some.inj he ▸ ⟨⟨hs.vmm, h.pages, h.slabs⟩, hone⟩
    · simp at he

end ThreadRun

open ThreadRun

variable {k : ThreadKernel} {t : ThreadRun}

end Tomato
